import Mathlib.Data.Nat.Size
import Scale.Proofs.Compact.JamGrammar
import Scale.Proofs.Compact.Types
import Scale.Proofs.Writing.Sinks

namespace Scale

namespace Digits

/-- A number has a digit for every eight bits, the last of which may be few. -/
theorem count_eq_size (n : Nat) : count n = (n.size + 7) / 8 := by
  -- Both are the least `k` for which the number is below `256 ^ k`.
  have hle (k : Nat) : count n ≤ k ↔ (n.size + 7) / 8 ≤ k := by
    have hbits : n < 256 ^ k ↔ n.size ≤ 8 * k := by
      rw [Nat.size_le, Nat.pow_mul]
    rw [count_le_iff, hbits]
    omega
  apply Nat.le_antisymm
  · exact (hle _).2 (Nat.le_refl _)
  · exact (hle _).1 (Nat.le_refl _)

end Digits

namespace Classic

/-- The number of bytes of a number with so many bits. -/
def sizeOfBits (bits : Nat) : Nat :=
  if bits ≤ 6 then 1
  else if bits ≤ 14 then 2
  else if bits ≤ 30 then 4
  else 1 + max 4 ((bits + 7) / 8)

/-- No form is shorter than one for fewer bits. -/
theorem sizeOfBits_le {bits more : Nat} (hle : bits ≤ more) : sizeOfBits bits ≤ sizeOfBits more := by
  grind [sizeOfBits]

theorem length_spelling {n : Nat} (hlt : n < capacity) :
    (spelling n).length = sizeOfBits n.size := by
  have hsingle : n.size ≤ 6 ↔ n < singleLimit := Nat.size_le
  have hdouble : n.size ≤ 14 ↔ n < doubleLimit := Nat.size_le
  have hquadruple : n.size ≤ 30 ↔ n < quadrupleLimit := Nat.size_le
  rw [spelling, Form.length_spell]
  by_cases hlow : quadrupleLimit ≤ n
  · obtain ⟨extra, hshortest, hcount⟩ := Form.shortest_eq_long hlow hlt
    have hbits : ¬ n.size ≤ 30 := mt hquadruple.1 (Nat.not_lt.2 hlow)
    rw [hshortest, Form.length, hcount, Digits.count_eq_size, sizeOfBits, if_neg (by omega),
      if_neg (by omega), if_neg hbits]
    omega
  · simp only [sizeOfBits, Form.shortest, hsingle, hdouble, hquadruple, if_pos (Nat.not_le.1 hlow)]
    split
    · rfl
    · split <;> rfl

end Classic

namespace Jam

/-- The number of bytes of a number with so many bits. -/
def sizeOfBits (bits : Nat) : Nat :=
  if bits ≤ 7 then 1 else min (1 + (bits - 1) / 7) 9

/-- No form is shorter than one for fewer bits. -/
theorem sizeOfBits_le {bits more : Nat} (hle : bits ≤ more) : sizeOfBits bits ≤ sizeOfBits more := by
  grind [sizeOfBits]

theorem length_spelling {n : Nat} (hlt : n < capacity) :
    (spelling n).length = sizeOfBits n.size := by
  obtain ⟨hle, hfits, hleast⟩ := shortest_extraBytes hlt
  have hbelow : extraBytes n < maxExtra → n.size ≤ 7 * (extraBytes n + 1) :=
    fun hextra => Nat.size_le.2 (hfits hextra)
  have habove : 0 < extraBytes n → 7 * extraBytes n < n.size := by
    intro hpos
    have hfewer := Nat.lt_size.2 (hleast (extraBytes n - 1) (by omega))
    rwa [Nat.sub_add_cancel hpos] at hfewer
  -- With all the bytes that there may be, no bit of the first one is left to hold anything.
  rw [spelling, length_spell, sizeOfBits]
  unfold maxExtra at hle hbelow
  split <;> omega

end Jam

namespace Scheme

variable {scheme : Scheme} {n : Nat}

/-- The number of bytes of a number with so many bits. -/
def sizeOfBits : Scheme → Nat → Nat
  | classic => Classic.sizeOfBits
  | jam => Jam.sizeOfBits

theorem length_spelling (hlt : n < scheme.capacity) :
    (scheme.spelling n).length = scheme.sizeOfBits n.size := by
  cases scheme with
  | classic => exact Classic.length_spelling hlt
  | jam => exact Jam.length_spelling hlt

theorem sizeOfBits_le (scheme : Scheme) {bits more : Nat} (hle : bits ≤ more) :
    scheme.sizeOfBits bits ≤ scheme.sizeOfBits more := by
  cases scheme with
  | classic => exact Classic.sizeOfBits_le hle
  | jam => exact Jam.sizeOfBits_le hle

/-- A greater number never takes fewer bytes. -/
theorem length_spelling_le {m : Nat} (hle : n ≤ m) (hlt : m < scheme.capacity) :
    (scheme.spelling n).length ≤ (scheme.spelling m).length := by
  rw [length_spelling (Nat.lt_of_le_of_lt hle hlt), length_spelling hlt]
  exact scheme.sizeOfBits_le (Nat.size_le_size hle)

end Scheme

namespace Definitions

variable {ι ω : Type} (defs : Definitions ι ω)

/-- The size of a compact number is that of its spelling, if it has one. -/
theorem encodedSize_compact_iff {scheme : Scheme} {t : IntegerType} {n size : Nat} :
    defs.encodedSize scheme (.compact t) (.int n) = .ok size ↔
      n < scheme.capacity ∧ size = scheme.sizeOfBits n.size := by
  have hnonneg : ¬ (n : Int) < 0 := Int.not_lt.2 (Int.natCast_nonneg n)
  rw [encodedSize_eq, encodeFull_compact, Scheme.coded, if_neg hnonneg]
  by_cases hlt : n < scheme.capacity
  · have hsmall : ¬ (scheme.capacity : Int) ≤ n := by omega
    rw [if_neg hsmall, ← Scheme.length_spelling hlt]
    constructor
    · intro hsize
      exact ⟨hlt, (Except.ok.inj hsize).symm⟩
    · rintro ⟨_, rfl⟩
      rfl
  · have hlarge : (scheme.capacity : Int) ≤ n := by omega
    rw [if_pos hlarge]
    constructor
    · intro hsize
      cases hsize
    · intro hboth
      exact absurd hboth.1 hlt

end Definitions

end Scale
