import Scale.Append
import Scale.Proofs.Writing.Sinks

namespace Scale.Appender

variable {scheme : Scheme} {buffer payload items header : List UInt8} {count : UInt64} {n : Nat}

theorem countType_contains_iff : countType.contains n = true ↔ n < 2 ^ 64 := by
  rw [countType, FixedInt.u64]
  exact Reader.word_contains_iff.trans Nat.lt_succ_iff.symm

/-- The bytes of a count are its spelling. -/
theorem encodeFull_count_iff {bytes : Array UInt8} :
    (Definitions.none : Definitions Empty Empty).encodeFull scheme (.compact countType) (.int n) =
      .ok bytes ↔ n < scheme.capacity ∧ bytes.toList = scheme.spelling n := by
  rw [Definitions.encodeFull_eq_ok_iff]
  change Writer.Emits scheme (Writer.putCompact n) bytes.toList ↔ _
  rw [Writer.emits_putCompact_iff, Int.toNat_natCast]
  exact ⟨fun hcount => hcount.2, fun hcount => ⟨Int.natCast_nonneg n, hcount⟩⟩

theorem encodeFull_count_of_lt (hword : n < 2 ^ 64) :
    (Definitions.none : Definitions Empty Empty).encodeFull scheme (.compact countType) (.int n) =
      .ok (scheme.spelling n).toArray :=
  encodeFull_count_iff.2 ⟨Scheme.lt_capacity_of_lt hword, List.toList_toArray⟩

theorem encodeCount_of_lt (hword : n < 2 ^ 64) :
    encodeCount scheme n = .ok (scheme.spelling n) := by
  rw [encodeCount, encodeFull_count_of_lt hword]
  rfl

theorem eq_spelling_of_encodeCount (hcount : encodeCount scheme n = .ok header) :
    n < scheme.capacity ∧ header = scheme.spelling n := by
  cases hfull : (Definitions.none : Definitions Empty Empty).encodeFull scheme (.compact countType)
      (.int n) with
  | error e =>
    rw [encodeCount, hfull] at hcount
    cases hcount
  | ok bytes =>
    obtain ⟨hlt, hbytes⟩ := encodeFull_count_iff.1 hfull
    rw [encodeCount, hfull] at hcount
    exact ⟨hlt, hbytes ▸ (Except.ok.inj hcount).symm⟩

/-- The size that room is made for is that of the header which is then written. -/
theorem countSize_of_lt (hword : n < 2 ^ 64) :
    countSize scheme n = .ok (scheme.spelling n).length := by
  rw [countSize, Definitions.encodedSize_eq, encodeFull_count_of_lt hword]
  rfl

/-- Reading a count reads its spelling, and what follows is left. -/
theorem takeCompact_header (hword : n < 2 ^ 64) :
    Reader.takeCompact countType (.decoder scheme (.slice (scheme.spelling n ++ payload))) =
      .ok n (.decoder scheme (.slice payload)) :=
  Reader.Yields.takeCompact (countType_contains_iff.2 hword) (Scheme.lt_capacity_of_lt hword) _
    payload rfl rfl

/-- A count that can be read is spelled at the front of the buffer. -/
theorem buffer_of_takeCompact {old : Int} {rest : Source}
    (hrun : Reader.takeCompact countType (.decoder scheme (.slice buffer)) = .ok old rest) :
    ∃ (n : Nat) (payload : List UInt8), old = n ∧ n < 2 ^ 64 ∧
      buffer = scheme.spelling n ++ payload ∧ rest = .decoder scheme (.slice payload) := by
  obtain ⟨n, payload, rfl, hcontains, _, hbytes, rfl⟩ := Reader.bytes_of_takeCompact hrun
  exact ⟨n, payload, rfl, countType_contains_iff.1 hcontains, hbytes, rfl⟩

theorem readCount_header (hword : n < 2 ^ 64) :
    readCount scheme (scheme.spelling n ++ payload) = .ok (n, (scheme.spelling n).length) := by
  have hlength : (scheme.spelling n ++ payload).length - payload.length =
      (scheme.spelling n).length := by
    rw [List.length_append, Nat.add_sub_cancel]
  rw [readCount, takeCompact_header hword]
  exact congrArg (fun length => Except.ok (n, length)) hlength

theorem lift_ok {ε α : Type} [Coe ε CodecError] (a : α) :
    lift (.ok a : Except ε α) = (pure a : Appender α) :=
  rfl

theorem get_bind {α : Type} {next : List UInt8 → Appender α} :
    (get >>= next) buffer = next buffer buffer :=
  rfl

theorem modify_eq {change : List UInt8 → List UInt8} :
    (modify change : Appender Unit) buffer = .ok () (change buffer) :=
  rfl

theorem bind_of_ok {step next : Appender Unit} {after : List UInt8}
    (hstep : step buffer = .ok () after) : (step >>= fun _ => next) buffer = next after := by
  change EStateM.bind step (fun _ => next) buffer = next after
  rw [EStateM.bind, hstep]

/-- Whichever way it is moved, what follows the header stays as it is, and the room in front of it
    is as long as the new header. -/
theorem exists_makeRoom_eq (header payload : List UInt8) (newLength : Nat) :
    ∃ room : List UInt8, room.length = newLength ∧
      makeRoom (fun oldLength newLength => modify (Buffer.narrow oldLength newLength)) header.length
        newLength (header ++ payload) = .ok () (room ++ payload) := by
  rw [makeRoom]
  obtain hgrow | hsame | hshrink := Nat.lt_trichotomy header.length newLength
  · refine ⟨(header ++ payload ++ List.replicate (newLength - header.length) 0).take newLength,
      List.length_take_of_le ?_, ?_⟩
    · simp only [List.length_append, List.length_replicate]
      omega
    · rw [if_pos hgrow, modify_eq, Buffer.widen_append (Nat.le_of_lt hgrow)]
  · refine ⟨header, hsame, ?_⟩
    rw [if_neg (Nat.not_lt.2 (Nat.le_of_eq hsame.symm)), if_neg (Nat.not_lt.2 (Nat.le_of_eq hsame))]
    rfl
  · refine ⟨header.take newLength, List.length_take_of_le (Nat.le_of_lt hshrink), ?_⟩
    rw [if_neg (Nat.lt_asymm hshrink), if_pos hshrink, modify_eq,
      Buffer.narrow_append (Nat.le_of_lt hshrink)]

/-- An empty buffer becomes a collection of the items. -/
theorem appendItems_nil :
    appendItems scheme items count [] = .ok () (scheme.spelling count.toNat ++ items) := by
  have hheader : encodeCount scheme count.toNat = .ok (scheme.spelling count.toNat) :=
    encodeCount_of_lt count.toNat_lt
  rw [appendItems, appendItemsWith, get_bind, hheader]
  rfl

/-- A buffer that is not empty has to begin with a count. -/
theorem appendItems_of_readCount_error {e : DecodeError} (hne : buffer ≠ [])
    (hcount : readCount scheme buffer = .error e) :
    appendItems scheme items count buffer = .error (.decode e) buffer := by
  rw [appendItems, appendItemsWith, get_bind, if_neg (mt List.isEmpty_iff.1 hne), hcount]
  rfl

theorem header_append_ne_nil : scheme.spelling n ++ payload ≠ [] :=
  List.append_ne_nil_of_left_ne_nil (List.length_pos_iff.1 (scheme.length_spelling_pos n)) payload

theorem appendItems_of_overflow (hword : n < 2 ^ 64) (hover : 2 ^ 64 ≤ n + count.toNat) :
    appendItems scheme items count (scheme.spelling n ++ payload) =
      .error (.encode .valueTooBig) (scheme.spelling n ++ payload) := by
  have hbig : maxCount < n + count.toNat := by
    unfold maxCount
    omega
  rw [appendItems, appendItemsWith, get_bind, if_neg (mt List.isEmpty_iff.1 header_append_ne_nil),
    readCount_header hword, lift_ok, pure_bind]
  dsimp only
  rw [if_pos hbig]
  rfl

/-- The count is replaced, whatever follows it is kept, and the items come last. Nothing can fail
    once the buffer has been changed. -/
theorem appendItems_header (hfits : n + count.toNat < 2 ^ 64) :
    appendItems scheme items count (scheme.spelling n ++ payload) =
      .ok () (scheme.spelling (n + count.toNat) ++ payload ++ items) := by
  have hsmall : ¬ maxCount < n + count.toNat := by
    unfold maxCount
    omega
  obtain ⟨room, hroom, hmoved⟩ := exists_makeRoom_eq (scheme.spelling n) payload
    (scheme.spelling (n + count.toNat)).length
  rw [appendItems, appendItemsWith, get_bind, if_neg (mt List.isEmpty_iff.1 header_append_ne_nil),
    readCount_header (by omega), lift_ok, pure_bind]
  dsimp only
  rw [if_neg hsmall, countSize_of_lt hfits, lift_ok, pure_bind, bind_of_ok hmoved,
    encodeCount_of_lt hfits, lift_ok, pure_bind, bind_of_ok modify_eq,
    Buffer.overwrite_zero_append hroom.symm, modify_eq]

/-- A buffer that is not empty either has no count that can be read, or it has one. Then what there
    is to do depends on the new count alone. -/
theorem appendItems_cases (scheme : Scheme) (items : List UInt8) (count : UInt64)
    {buffer : List UInt8} (hne : buffer ≠ []) :
    (∃ cause rest,
      Reader.takeCompact countType (.decoder scheme (.slice buffer)) = .error cause rest ∧
      appendItems scheme items count buffer = .error (.decode cause) buffer) ∨
    ∃ (n : Nat) (payload : List UInt8), n < 2 ^ 64 ∧ buffer = scheme.spelling n ++ payload ∧
      Reader.takeCompact countType (.decoder scheme (.slice buffer)) =
        .ok n (.decoder scheme (.slice payload)) ∧
      appendItems scheme items count buffer =
        if n + count.toNat < 2 ^ 64 then
          .ok () (scheme.spelling (n + count.toNat) ++ payload ++ items)
        else .error (.encode .valueTooBig) buffer := by
  cases hfront : Reader.takeCompact countType (.decoder scheme (.slice buffer)) with
  | error cause rest =>
    have hcount : readCount scheme buffer = .error cause := by rw [readCount, hfront]
    exact Or.inl ⟨cause, rest, rfl, appendItems_of_readCount_error hne hcount⟩
  | ok old rest =>
    obtain ⟨n, payload, rfl, hword, rfl, rfl⟩ := buffer_of_takeCompact hfront
    refine Or.inr ⟨n, payload, hword, rfl, rfl, ?_⟩
    by_cases hfits : n + count.toNat < 2 ^ 64
    · rw [if_pos hfits]
      exact appendItems_header hfits
    · rw [if_neg hfits]
      exact appendItems_of_overflow hword (Nat.not_lt.1 hfits)

/-- Behind the header of a count anything may follow. -/
theorem appendItems_eq_ok_iff (hheader : encodeCount scheme n = .ok header) (after : List UInt8) :
    appendItems scheme items count (header ++ payload) = .ok () after ↔
      n + count.toNat < 2 ^ 64 ∧ ∃ newHeader, encodeCount scheme (n + count.toNat) = .ok newHeader ∧
        after = newHeader ++ payload ++ items := by
  obtain ⟨hlt, rfl⟩ := eq_spelling_of_encodeCount hheader
  constructor
  · intro hrun
    have hne : scheme.spelling n ++ payload ≠ [] := header_append_ne_nil
    obtain ⟨cause, rest, _, herror⟩ | ⟨m, left, hword, hbuffer, _, hok⟩ :=
      appendItems_cases scheme items count hne
    · rw [hrun] at herror
      cases herror
    · obtain ⟨rfl, rfl⟩ := Scheme.spelling_append_inj hlt (Scheme.lt_capacity_of_lt hword) hbuffer
      rw [hrun] at hok
      split at hok
      · rename_i hfits
        exact ⟨hfits, _, encodeCount_of_lt hfits, (EStateM.Result.ok.inj hok).2⟩
      · cases hok
  · rintro ⟨hfits, newHeader, hnew, rfl⟩
    rw [appendItems_header hfits, (eq_spelling_of_encodeCount hnew).2]

/-- Without a count that can be read, or with one that would grow beyond 64 bits, nothing is
    changed. -/
theorem appendItems_eq_error_iff {e : CodecError} {after : List UInt8} :
    appendItems scheme items count buffer = .error e after ↔ buffer ≠ [] ∧ after = buffer ∧
      ((∃ cause rest, Reader.takeCompact countType (.decoder scheme (.slice buffer)) =
          .error cause rest ∧ e = .decode cause) ∨
        ∃ old rest, Reader.takeCompact countType (.decoder scheme (.slice buffer)) = .ok old rest ∧
          2 ^ 64 ≤ old + count.toNat ∧ e = .encode .valueTooBig) := by
  by_cases hempty : buffer = []
  · rw [hempty, appendItems_nil]
    exact ⟨fun herror => (nomatch herror), fun hfails => absurd rfl hfails.1⟩
  obtain ⟨cause, rest, hfront, hrun⟩ | ⟨n, payload, hword, _, hfront, hrun⟩ :=
    appendItems_cases scheme items count hempty
  · rw [hrun, hfront]
    constructor
    · intro herror
      obtain ⟨rfl, rfl⟩ := EStateM.Result.error.inj herror
      exact ⟨hempty, rfl, Or.inl ⟨cause, rest, rfl, rfl⟩⟩
    · rintro ⟨_, rfl, ⟨cause', rest', hsame, rfl⟩ | ⟨old, rest', hsame, _⟩⟩
      · obtain ⟨rfl, _⟩ := EStateM.Result.error.inj hsame
        rfl
      · cases hsame
  · rw [hrun, hfront]
    constructor
    · intro herror
      split at herror
      · cases herror
      · rename_i hover
        obtain ⟨rfl, rfl⟩ := EStateM.Result.error.inj herror
        exact ⟨hempty, rfl, Or.inr ⟨n, _, rfl, by omega, rfl⟩⟩
    · rintro ⟨_, rfl, ⟨cause, rest, hsame, _⟩ | ⟨old, rest, hsame, hover, rfl⟩⟩
      · cases hsame
      · obtain ⟨rfl, _⟩ := EStateM.Result.ok.inj hsame
        rw [if_neg (by omega)]

/-- Appending fails just when there is a count that cannot be read or that would grow beyond
    64 bits, and what was in the buffer is then still there, byte for byte. When it does not fail,
    the count in front is all that changes in the buffer, and the items come last. -/
theorem appendItems_all_or_nothing (scheme : Scheme) (items : List UInt8) (count : UInt64)
    (buffer : List UInt8) :
    let front := Reader.takeCompact countType (.decoder scheme (.slice buffer))
    let run := appendItems scheme items count buffer
    (∀ e after, run = .error e after ↔ buffer ≠ [] ∧ after = buffer ∧
      ((∃ cause rest, front = .error cause rest ∧ e = .decode cause) ∨
        ∃ old rest, front = .ok old rest ∧ 2 ^ 64 ≤ old + count.toNat ∧ e = .encode .valueTooBig)) ∧
    ∀ n header payload, encodeCount scheme n = .ok header → buffer = header ++ payload →
      ∀ after, run = .ok () after ↔ n + count.toNat < 2 ^ 64 ∧
        ∃ newHeader, encodeCount scheme (n + count.toNat) = .ok newHeader ∧
          after = newHeader ++ payload ++ items := by
  refine ⟨fun e after => appendItems_eq_error_iff, ?_⟩
  rintro n header payload hheader rfl after
  exact appendItems_eq_ok_iff hheader after

end Scale.Appender
