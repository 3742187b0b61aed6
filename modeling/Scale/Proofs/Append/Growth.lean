import Scale.Proofs.Append.Outcomes
import Scale.Proofs.Compact.Size

namespace Scale.Appender

variable {scheme : Scheme} {buffer header : List UInt8} {oldCount oldLength newLength more : Nat}

/-- A count takes as many bytes in the buffer that it is read from as it takes when it is written. -/
theorem length_of_readCount (hcount : readCount scheme buffer = .ok (oldCount, oldLength)) :
    oldCount < scheme.capacity ∧ oldLength = (scheme.spelling oldCount).length := by
  cases hfront : Reader.takeCompact countType (.decoder scheme (.slice buffer)) with
  | error e rest =>
    rw [readCount, hfront] at hcount
    cases hcount
  | ok old rest =>
    obtain ⟨n, payload, rfl, hword, rfl, rfl⟩ := buffer_of_takeCompact hfront
    rw [readCount_header hword] at hcount
    obtain ⟨rfl, rfl⟩ := Prod.mk.inj (Except.ok.inj hcount)
    exact ⟨Scheme.lt_capacity_of_lt hword, rfl⟩

theorem countSize_iff : countSize scheme more = .ok newLength ↔
    more < scheme.capacity ∧ newLength = (scheme.spelling more).length := by
  rw [countSize, Definitions.encodedSize_compact_iff]
  refine and_congr_right fun hlt => ?_
  rw [Scheme.length_spelling hlt]

/-- The room that is made for a header is as long as the header. -/
theorem countSize_of_encodeCount (hheader : encodeCount scheme more = .ok header) :
    countSize scheme more = .ok header.length := by
  obtain ⟨hlt, rfl⟩ := eq_spelling_of_encodeCount hheader
  exact countSize_iff.2 ⟨hlt, rfl⟩

/-- No count takes fewer bytes than a smaller one that was read. -/
theorem length_le_of_readCount (hcount : readCount scheme buffer = .ok (oldCount, oldLength))
    (hsize : countSize scheme (oldCount + more) = .ok newLength) : oldLength ≤ newLength := by
  obtain ⟨_, rfl⟩ := length_of_readCount hcount
  obtain ⟨hlt, rfl⟩ := countSize_iff.1 hsize
  exact Scheme.length_spelling_le (Nat.le_add_right oldCount more) hlt

/-- Of two steps for a shorter header neither is taken when the new header is not shorter. -/
theorem makeRoom_congr (shrink shrink' : Nat → Nat → Appender Unit) (hgrows : oldLength ≤ newLength) :
    makeRoom shrink oldLength newLength = makeRoom shrink' oldLength newLength := by
  simp only [makeRoom, if_neg (Nat.not_lt.2 hgrows)]

theorem appendItemsWith_congr (shrink shrink' : Nat → Nat → Appender Unit) (scheme : Scheme)
    (items : List UInt8) (count : UInt64) :
    appendItemsWith shrink scheme items count = appendItemsWith shrink' scheme items count := by
  funext buffer
  rw [appendItemsWith, appendItemsWith, get_bind, get_bind]
  by_cases hempty : buffer.isEmpty
  · rw [if_pos hempty, if_pos hempty]
  · rw [if_neg hempty, if_neg hempty]
    cases hcount : readCount scheme buffer with
    | error e => rfl
    | ok front =>
      obtain ⟨oldCount, oldLength⟩ := front
      simp only [lift_ok, pure_bind]
      by_cases hbig : maxCount < oldCount + count.toNat
      · rw [if_pos hbig, if_pos hbig]
        rfl
      · rw [if_neg hbig, if_neg hbig]
        cases hsize : countSize scheme (oldCount + count.toNat) with
        | error e => rfl
        | ok newLength =>
          have hgrows := length_le_of_readCount hcount hsize
          simp only [lift_ok, pure_bind, makeRoom_congr shrink shrink' hgrows]

/-- The size of a compact number follows from the number of its bits, and a greater number never takes
    fewer bytes. So the new header of a buffer is never shorter than the one that is there, and the step
    for a shorter one is never taken: with any other in its place, appending is the same. -/
theorem header_never_shrinks (scheme : Scheme) :
    (∀ {ι ω : Type} (defs : Definitions ι ω) (t : IntegerType) (n size : Nat),
      defs.encodedSize scheme (.compact t) (.int n) = .ok size ↔
        n < scheme.capacity ∧ size = scheme.sizeOfBits n.size) ∧
    (∀ {ι ω : Type} (defs : Definitions ι ω) (t : IntegerType) (n m small large : Nat), n ≤ m →
      defs.encodedSize scheme (.compact t) (.int n) = .ok small →
      defs.encodedSize scheme (.compact t) (.int m) = .ok large → small ≤ large) ∧
    (∀ (buffer : List UInt8) (count : UInt64) (oldCount oldLength : Nat) (header : List UInt8),
      readCount scheme buffer = .ok (oldCount, oldLength) →
      encodeCount scheme (oldCount + count.toNat) = .ok header →
        countSize scheme (oldCount + count.toNat) = .ok header.length ∧
        oldLength ≤ header.length) ∧
    ∀ (shrink : Nat → Nat → Appender Unit) (items : List UInt8) (count : UInt64),
      appendItemsWith shrink scheme items count = appendItems scheme items count := by
  refine ⟨fun defs t n size => defs.encodedSize_compact_iff, ?_, ?_,
    fun shrink => appendItemsWith_congr shrink _ scheme⟩
  · intro ι ω defs t n m small large hle hsmall hlarge
    obtain ⟨_, rfl⟩ := defs.encodedSize_compact_iff.1 hsmall
    obtain ⟨_, rfl⟩ := defs.encodedSize_compact_iff.1 hlarge
    exact scheme.sizeOfBits_le (Nat.size_le_size hle)
  · intro buffer count oldCount oldLength header hcount hheader
    have hsize := countSize_of_encodeCount hheader
    exact ⟨hsize, length_le_of_readCount hcount hsize⟩

end Scale.Appender
