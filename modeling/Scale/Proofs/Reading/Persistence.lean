import Scale.Proofs.Reading.Depth

namespace Scale

namespace Reader

variable {α β : Type} {scheme : Scheme} {room : Nat} {xs ys : List UInt8}

/-- The step takes just these bytes off and gives the value, provided that at least `room` bytes
    follow. -/
def YieldsBefore (scheme : Scheme) (room : Nat) (step : Reader α) (bytes : List UInt8) (a : α) :
    Prop :=
  ∀ (source : Source) (rest : List UInt8), source.scheme = scheme → source.bytes = bytes ++ rest →
    room ≤ rest.length → step source = .ok a (source.withBytes rest)

theorem Yields.before {step : Reader α} {a : α} (hstep : Yields scheme step xs a) (room : Nat) :
    YieldsBefore scheme room step xs a :=
  fun source rest hscheme hbytes _ => hstep source rest hscheme hbytes

theorem YieldsBefore.mono {step : Reader α} {a : α} {more : Nat} (hle : room ≤ more)
    (hstep : YieldsBefore scheme room step xs a) : YieldsBefore scheme more step xs a :=
  fun source rest hscheme hbytes hroom => hstep source rest hscheme hbytes (Nat.le_trans hle hroom)

theorem YieldsBefore.bind {step : Reader α} {next : α → Reader β} {a : α} {b : β} {fewer : Nat}
    (hstep : YieldsBefore scheme fewer step xs a) (hfewer : fewer ≤ ys.length + room)
    (hnext : YieldsBefore scheme room (next a) ys b) :
    YieldsBefore scheme room (step >>= next) (xs ++ ys) b := by
  intro source rest hscheme hbytes hroom
  have henough : fewer ≤ (ys ++ rest).length := by
    rw [List.length_append]
    omega
  rw [List.append_assoc] at hbytes
  rw [Step.bind_of_ok (hstep source _ hscheme hbytes henough),
    hnext _ rest (by rw [Source.scheme_withBytes, hscheme]) (Source.bytes_withBytes _ _) hroom,
    Source.withBytes_withBytes]

theorem YieldsBefore.map {step : Reader α} {f : α → β} {a : α}
    (hstep : YieldsBefore scheme room step xs a) :
    YieldsBefore scheme room (step >>= fun a => Pure.pure (f a)) xs (f a) := by
  rw [← List.append_nil xs]
  exact hstep.bind (Nat.le_add_left room _) ((Yields.pure (f a)).before room)

/-- Bytes that are made sure of may be among those that follow. -/
theorem YieldsBefore.need_bind {step : Reader α} {amount : Nat} {a : α}
    (henough : amount ≤ xs.length + room) (hstep : YieldsBefore scheme room step xs a) :
    YieldsBefore scheme room (need amount >>= fun _ => step) xs a := by
  intro source rest hscheme hbytes hroom
  have hneed : need amount source = .ok () source :=
    need_of_le (by rw [hbytes, List.length_append]; omega)
  rw [Step.bind_of_ok hneed]
  exact hstep source rest hscheme hbytes hroom

/-- A run of items is read when its count is small enough and there is a byte for each item, be it
    among those that follow. -/
theorem YieldsBefore.takeItemCount_bind {itemSize limit n : Nat} {items : Nat → Reader α} {a : α}
    (hlimit : n ≤ limit) (hmemory : n ≤ maxItems itemSize) (hlt : n < scheme.capacity)
    (henough : itemSize ≠ 0 → n ≤ xs.length + room)
    (hitems : YieldsBefore scheme room (items n) xs a) :
    YieldsBefore scheme room (takeItemCount itemSize limit >>= items) (scheme.spelling n ++ xs) a := by
  rw [takeItemCount_eq, bind_assoc]
  have hcount := Yields.takeCount (Nat.le_min.2 ⟨hlimit, hmemory⟩)
    (Nat.le_trans hmemory (maxItems_le_maxCount itemSize)) hlt
  refine (hcount.before 0).bind (Nat.zero_le _) ?_
  by_cases hsize : itemSize = 0
  · simpa only [hsize, ne_eq, not_true, if_false, pure_bind] using hitems
  · rw [if_pos hsize, bind_assoc]
    exact YieldsBefore.need_bind (henough hsize) (by rwa [pure_bind])

/-- What the first step reads, the second one reads wherever no fewer bytes follow. -/
def Persists (step step' : Reader α) : Prop :=
  ∀ ⦃source after : Source⦄ ⦃a : α⦄, step source = .ok a after →
    after.scheme = source.scheme ∧ ∃ taken, source.bytes = taken ++ after.bytes ∧
      YieldsBefore source.scheme after.bytes.length step' taken a

theorem Persists.pure (a : α) : Persists (Pure.pure a : Reader α) (Pure.pure a) := by
  intro source after b hrun
  obtain ⟨rfl, rfl⟩ := Step.pure_eq_ok_iff.1 hrun
  exact ⟨rfl, [], rfl, (Yields.pure a).before _⟩

theorem Persists.throw (e : DecodeError) (step : Reader α) :
    Persists (MonadExcept.throw e : Reader α) step := by
  intro source after a hrun
  cases hrun

theorem Persists.bind {step step' : Reader α} {next next' : α → Reader β}
    (hstep : Persists step step') (hnext : ∀ a, Persists (next a) (next' a)) :
    Persists (step >>= next) (step' >>= next') := by
  intro source after b hrun
  obtain ⟨a, middle, hfirst, hsecond⟩ := Step.bind_eq_ok_iff.1 hrun
  obtain ⟨hmiddle, taken, hsource, hyields⟩ := hstep hfirst
  obtain ⟨hafter, more, hbytes, hmore⟩ := hnext a hsecond
  rw [hmiddle] at hafter hmore
  refine ⟨hafter, taken ++ more, by rw [hsource, hbytes, List.append_assoc], ?_⟩
  exact hyields.bind (Nat.le_of_eq (by rw [hbytes, List.length_append])) hmore

theorem Persists.of_demands {step : Reader α} {amount used : Nat} {value : List UInt8 → α}
    (hstep : Demands step amount used value) : Persists step step := by
  intro source after a hrun
  by_cases hle : amount ≤ source.bytes.length
  · rw [hstep.ok hle] at hrun
    obtain ⟨rfl, rfl⟩ := EStateM.Result.ok.inj hrun
    have hused : (source.bytes.take used).length = used :=
      List.length_take_of_le (Nat.le_trans hstep.used_le hle)
    rw [Source.bytes_withBytes]
    refine ⟨Source.scheme_withBytes _ _, source.bytes.take used, (List.take_append_drop _ _).symm, ?_⟩
    intro other rest _ hbytes hroom
    have henough : amount ≤ other.bytes.length := by
      rw [List.length_drop] at hroom
      rw [hbytes, List.length_append, hused]
      omega
    rw [hstep.ok henough, hbytes, List.take_left' hused, List.drop_left' hused]
  · rw [hstep.error (Nat.not_le.1 hle)] at hrun
    cases hrun

theorem persists_scheme : Persists Reader.scheme Reader.scheme := by
  intro source after scheme hrun
  cases hrun
  refine ⟨rfl, [], rfl, fun other rest hscheme hbytes _ => ?_⟩
  have hyields : Yields source.scheme (Pure.pure source.scheme) [] source.scheme := Yields.pure _
  rw [← hyields other rest hscheme hbytes, ← hscheme]
  rfl

theorem persists_congruence : Congruence fun {_} step step' => Persists step step' where
  pure := Persists.pure
  throw e := Persists.throw e _
  bind := Persists.bind
  takeByte := Persists.of_demands demands_takeByte
  read amount := Persists.of_demands (demands_read amount)
  need amount := Persists.of_demands (demands_need amount)
  scheme := persists_scheme

end Reader

namespace Definitions

open Reader

variable {ι : Type} (defs : Definitions ι Empty)

theorem persists_readRef {depth depth' : Nat} (hdepth : depth ≤ depth') (name : ι) :
    Persists (defs.readRef depth name) (defs.readRef depth' name) := by
  induction depth generalizing depth' name with
  | zero => exact Persists.throw _ _
  | succ depth ih =>
    cases depth' with
    | zero => exact absurd hdepth (Nat.not_succ_le_zero depth)
    | succ depth' => exact persists_congruence.readWith (ih (Nat.le_of_succ_le_succ hdepth)) _

/-- A value is read from the same bytes wherever no fewer bytes follow. -/
theorem persists_read (s : Schema ι Empty) : Persists (defs.read s) (defs.read s) := by
  have hpersists : ∀ {depth depth' : Nat}, depth ≤ depth' →
      Persists (s.readWith defs.layout (defs.readRef depth))
        (s.readWith defs.layout (defs.readRef depth')) := fun hdepth =>
    persists_congruence.readWith (defs.persists_readRef hdepth) s
  intro source after v hrun
  rw [read_apply] at hrun
  obtain ⟨hscheme, taken, hbytes, _⟩ := hpersists (Nat.le_refl _) hrun
  refine ⟨hscheme, taken, hbytes, fun other rest hother hsource hroom => ?_⟩
  have hdepth : source.remaining + 1 ≤ other.remaining + 1 := by
    rw [Source.remaining_eq, Source.remaining_eq, hbytes, hsource, List.length_append,
      List.length_append]
    omega
  obtain ⟨_, taken', hbytes', hyields⟩ := hpersists hdepth hrun
  obtain rfl := List.append_cancel_right (hbytes.symm.trans hbytes')
  exact hyields other rest hother hsource hroom

end Definitions

end Scale
