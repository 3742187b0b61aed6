import Scale.Compact.Basic
import Scale.Proofs.Step

namespace Scale.Reader

variable {α β : Type} {source : Source} {scheme : Scheme} {xs ys : List UInt8}

theorem takeByte_of_nil (hbytes : source.bytes = []) :
    takeByte source = .error .notEnoughData source := by
  unfold takeByte ofTake
  rw [Source.takeByte?_eq, hbytes]

theorem takeByte_of_cons {byte : UInt8} (hbytes : source.bytes = byte :: xs) :
    takeByte source = .ok byte (source.withBytes xs) := by
  unfold takeByte ofTake
  rw [Source.takeByte?_eq, hbytes]

theorem read_of_le {amount : Nat} (hle : amount ≤ source.bytes.length) :
    read amount source =
      .ok (source.bytes.take amount) (source.withBytes (source.bytes.drop amount)) := by
  unfold read ofTake
  rw [Source.read?_eq, if_pos hle]

theorem read_of_lt {amount : Nat} (hlt : source.bytes.length < amount) :
    read amount source = .error .notEnoughData source := by
  unfold read ofTake
  rw [Source.read?_eq, if_neg (by omega)]

theorem takeTag_of_nil {alternatives : Nat} (hbytes : source.bytes = []) :
    takeTag alternatives source = .error .notEnoughData source :=
  Step.bind_of_error (takeByte_of_nil hbytes)

theorem takeTag_of_lt {alternatives : Nat} {tag : UInt8} (hbytes : source.bytes = tag :: xs)
    (hlt : tag.toNat < alternatives) :
    takeTag alternatives source = .ok tag.toNat (source.withBytes xs) := by
  rw [takeTag, Step.bind_of_ok (takeByte_of_cons hbytes), if_pos hlt]
  rfl

theorem takeTag_of_le {alternatives : Nat} {tag : UInt8} (hbytes : source.bytes = tag :: xs)
    (hle : alternatives ≤ tag.toNat) :
    takeTag alternatives source = .error .wrongTypeIndex (source.withBytes xs) := by
  rw [takeTag, Step.bind_of_ok (takeByte_of_cons hbytes), if_neg (Nat.not_lt.2 hle)]
  rfl

/-- Spans are read like any other bytes. -/
theorem readSpan_eq_read (amount : Nat) : readSpan amount = read amount := by
  unfold readSpan read ofTake
  funext source
  rw [Source.readSpan?_eq_read?]

/-- Makes sure that at least `amount` bytes are left. -/
def need (amount : Nat) : Reader Unit := do
  if !(← has amount) then
    throw .notEnoughData

theorem need_of_le {amount : Nat} (hle : amount ≤ source.bytes.length) :
    need amount source = .ok () source := by
  have hhas : source.has amount = true := by simpa [Source.has, Source.remaining_eq] using hle
  have hrun : has amount source = .ok true source := by rw [← hhas]; rfl
  rw [need, Step.bind_of_ok hrun]
  rfl

theorem need_of_lt {amount : Nat} (hlt : source.bytes.length < amount) :
    need amount source = .error .notEnoughData source := by
  have hhas : source.has amount = false := by simpa [Source.has, Source.remaining_eq] using hlt
  have hrun : has amount source = .ok false source := by rw [← hhas]; rfl
  rw [need, Step.bind_of_ok hrun]
  rfl

theorem eq_of_need {amount : Nat} {after : Source} (hrun : need amount source = .ok () after) :
    after = source := by
  by_cases hle : amount ≤ source.bytes.length
  · rw [need_of_le hle] at hrun
    exact (EStateM.Result.ok.inj hrun).2.symm
  · rw [need_of_lt (Nat.not_le.1 hle)] at hrun
    cases hrun

/-- The step fails for lack of data, and takes nothing, unless `amount` bytes are left; otherwise it
    takes the first `used` of them and computes its value from these. -/
structure Demands (step : Reader α) (amount used : Nat) (value : List UInt8 → α) : Prop where
  used_le : used ≤ amount
  ok : ∀ {source : Source}, amount ≤ source.bytes.length → step source =
    .ok (value (source.bytes.take used)) (source.withBytes (source.bytes.drop used))
  error : ∀ {source : Source}, source.bytes.length < amount →
    step source = .error .notEnoughData source

theorem demands_takeByte : Demands takeByte 1 1 (fun bytes => bytes.headD 0) where
  used_le := Nat.le_refl 1
  ok := by
    intro source hle
    cases hbytes : source.bytes with
    | nil => simp [hbytes] at hle
    | cons byte rest => rw [takeByte_of_cons hbytes]; rfl
  error := by
    intro source hlt
    exact takeByte_of_nil (List.length_eq_zero_iff.1 (Nat.lt_one_iff.1 hlt))

theorem demands_read (amount : Nat) : Demands (read amount) amount amount id where
  used_le := Nat.le_refl amount
  ok := read_of_le
  error := read_of_lt

theorem demands_need (amount : Nat) : Demands (need amount) amount 0 (fun _ => ()) where
  used_le := Nat.zero_le amount
  ok := by
    intro source hle
    rw [need_of_le hle, List.drop_zero, Source.withBytes_bytes]
  error := need_of_lt

/-- Whatever the rest, the step takes just these bytes off and gives the value. -/
def Yields (scheme : Scheme) (step : Reader α) (bytes : List UInt8) (a : α) : Prop :=
  ∀ (source : Source) (rest : List UInt8), source.scheme = scheme →
    source.bytes = bytes ++ rest → step source = .ok a (source.withBytes rest)

theorem Yields.pure (a : α) : Yields scheme (Pure.pure a) [] a := by
  intro source rest _ hbytes
  have hsource : source.withBytes rest = source := by
    rw [← Source.withBytes_bytes source, hbytes, List.nil_append, Source.withBytes_withBytes]
  rw [hsource]
  rfl

theorem Yields.bind {step : Reader α} {next : α → Reader β} {a : α} {b : β}
    (hstep : Yields scheme step xs a) (hnext : Yields scheme (next a) ys b) :
    Yields scheme (step >>= next) (xs ++ ys) b := by
  intro source rest hscheme hbytes
  rw [List.append_assoc] at hbytes
  rw [Step.bind_of_ok (hstep source _ hscheme hbytes),
    hnext _ rest (by rw [Source.scheme_withBytes, hscheme]) (Source.bytes_withBytes _ _),
    Source.withBytes_withBytes]

/-- A step that ends by turning what it has read into the value. -/
theorem Yields.map {step : Reader α} {f : α → β} {a : α} (hstep : Yields scheme step xs a) :
    Yields scheme (step >>= fun a => Pure.pure (f a)) xs (f a) := by
  have hbind : Yields scheme (step >>= fun a => Pure.pure (f a)) (xs ++ []) (f a) :=
    hstep.bind (Yields.pure (f a))
  rwa [List.append_nil] at hbind

theorem Yields.takeByte (byte : UInt8) : Yields scheme takeByte [byte] byte := by
  intro source rest _ hbytes
  exact takeByte_of_cons hbytes

theorem Yields.read (bytes : List UInt8) : Yields scheme (read bytes.length) bytes bytes := by
  intro source rest _ hbytes
  have hle : bytes.length ≤ source.bytes.length := by simp [hbytes]
  rw [read_of_le hle, hbytes, List.take_left, List.drop_left]

/-- Making sure of bytes that are then taken changes nothing. -/
theorem Yields.need_bind {step : Reader α} {amount : Nat} {a : α} (hroom : amount ≤ xs.length)
    (hstep : Yields scheme step xs a) : Yields scheme (need amount >>= fun _ => step) xs a := by
  intro source rest hscheme hbytes
  have hneed : need amount source = .ok () source :=
    need_of_le (by rw [hbytes, List.length_append]; omega)
  rw [Step.bind_of_ok hneed]
  exact hstep source rest hscheme hbytes

/-- Digits are read in the scheme of the source. -/
theorem Yields.takeDigits {digits : Digits} (htake : Yields scheme scheme.take xs digits) :
    Yields scheme takeDigits xs digits := by
  intro source rest hscheme hbytes
  have hrun := htake source rest hscheme hbytes
  subst hscheme
  exact hrun

end Scale.Reader
