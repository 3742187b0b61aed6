import Scale.Proofs.Compact.ClassicGrammar
import Scale.Proofs.Compact.Jam

namespace Scale.Scheme

variable {scheme : Scheme} {n : Nat}

/-- Numbers below this one can be written. -/
def capacity : Scheme → Nat
  | classic => Classic.capacity
  | jam => Jam.capacity

/-- The bytes that stand for a number. -/
def spelling : Scheme → Nat → List UInt8
  | classic => Classic.spelling
  | jam => Jam.spelling

/-- Both schemes can hold all 64-bit words. -/
theorem lt_capacity_of_lt (hword : n < 2 ^ 64) : n < scheme.capacity := by
  cases scheme with
  | classic =>
    have hroom : 2 ^ 64 ≤ Classic.capacity := by
      rw [Classic.capacity_eq]
      exact Nat.le_trans (by decide : 2 ^ 64 ≤ 256 ^ 8) (Nat.pow_le_pow_right (by decide) (by decide))
    exact Nat.lt_of_lt_of_le hword hroom
  | jam => exact hword

theorem length_spelling_pos (scheme : Scheme) (n : Nat) : 0 < (scheme.spelling n).length := by
  cases scheme with
  | classic =>
    rw [spelling, Classic.spelling, Classic.Form.length_spell]
    exact Classic.Form.length_pos _
  | jam =>
    rw [spelling, Jam.spelling, Jam.length_spell]
    exact Nat.succ_pos _

theorem put_eq (digits : Digits) :
    scheme.put digits = if scheme.capacity ≤ digits.toNat then throw .valueTooBig
      else Writer.putSpan (scheme.spelling digits.toNat) := by
  cases scheme with
  | classic => exact Classic.put_eq digits
  | jam => exact Jam.put_eq digits

theorem yields_spelling (hlt : n < scheme.capacity) :
    Reader.Yields scheme scheme.take (scheme.spelling n) (Digits.ofNat n) := by
  cases scheme with
  | classic => exact Classic.yields_spelling hlt
  | jam => exact Jam.yields_spelling hlt

theorem bytes_of_take {source after : Source} {digits : Digits}
    (hrun : scheme.take source = .ok digits after) :
    ∃ n rest, n < scheme.capacity ∧ digits = Digits.ofNat n ∧
      source.bytes = scheme.spelling n ++ rest ∧ after = source.withBytes rest := by
  cases scheme with
  | classic => exact Classic.bytes_of_take hrun
  | jam => exact Jam.bytes_of_take hrun

/-- No spelling begins with that of another number. -/
theorem spelling_append_inj {m : Nat} {xs ys : List UInt8} (hn : n < scheme.capacity)
    (hm : m < scheme.capacity) (heq : scheme.spelling n ++ xs = scheme.spelling m ++ ys) :
    n = m ∧ xs = ys := by
  let source := Source.decoder scheme (.slice (scheme.spelling n ++ xs))
  have hleft : scheme.take source = .ok (Digits.ofNat n) (source.withBytes xs) :=
    yields_spelling hn source xs rfl rfl
  have hright : scheme.take source = .ok (Digits.ofNat m) (source.withBytes ys) :=
    yields_spelling hm source ys rfl heq
  obtain ⟨hdigits, hrest⟩ := EStateM.Result.ok.inj (hleft.symm.trans hright)
  have hnumber := congrArg Digits.toNat hdigits
  have hbytes := congrArg Source.bytes hrest
  rw [Digits.toNat_ofNat, Digits.toNat_ofNat] at hnumber
  rw [Source.bytes_withBytes, Source.bytes_withBytes] at hbytes
  exact ⟨hnumber, hbytes⟩

/-- Digits can be written when the number that they spell is below the capacity. -/
theorem emits_put_iff {digits : Digits} {bytes : List UInt8} :
    Writer.Emits scheme (scheme.put digits) bytes ↔
      digits.toNat < scheme.capacity ∧ bytes = scheme.spelling digits.toNat := by
  rw [put_eq]
  constructor
  · intro hemits
    split at hemits
    · exact absurd hemits Writer.not_emits_throw
    · exact ⟨Nat.not_le.1 ‹_›, hemits.unique (Writer.Emits.putSpan _)⟩
  · rintro ⟨hlt, rfl⟩
    rw [if_neg (Nat.not_le.2 hlt)]
    exact Writer.Emits.putSpan _

theorem uniform_put (digits : Digits) : Writer.Uniform (scheme.put digits) := by
  rw [put_eq]
  split
  · exact Writer.Uniform.throw _
  · exact Writer.Uniform.putSpan _

end Scale.Scheme
