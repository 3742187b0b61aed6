import Scale.LittleEndian

namespace Scale

/-- Little-endian bytes of a natural number. They are trimmed when the last one is not zero. -/
abbrev Digits := List UInt8

namespace Digits

/-- The number of digits that `n` needs. -/
def count (n : Nat) : Nat :=
  if n = 0 then 0 else n.log2 / 8 + 1

/-- The trimmed digits of `n`. -/
def ofNat (n : Nat) : Digits :=
  littleEndian (count n) n

/-- The number that the digits spell, trimmed or not. -/
def toNat (digits : Digits) : Nat :=
  ofLittleEndian digits

/-- Drops the zero bytes at the top. -/
def trim : Digits → Digits
  | [] => []
  | d :: ds =>
    match trim ds with
    | [] => if d = 0 then [] else [d]
    | rest => d :: rest

/-- No zero byte stands at the top. -/
def Trimmed (digits : Digits) : Prop :=
  digits.getLast? ≠ some 0

instance (digits : Digits) : Decidable (Trimmed digits) :=
  inferInstanceAs (Decidable (_ ≠ _))

theorem lt_pow_count (n : Nat) : n < 256 ^ count n := by
  unfold count
  split
  · omega
  · have hle : 2 ^ (n.log2 + 1) ≤ 2 ^ (8 * (n.log2 / 8 + 1)) :=
      Nat.pow_le_pow_right (by decide) (by omega)
    rw [Nat.pow_mul] at hle
    exact Nat.lt_of_lt_of_le Nat.lt_log2_self hle

/-- The top digit of a number carries part of it. -/
theorem pow_le_of_count_eq {n k : Nat} (hcount : count n = k + 1) : 256 ^ k ≤ n := by
  have hpos : n ≠ 0 := by
    intro hzero
    simp [count, hzero] at hcount
  rw [count, if_neg hpos] at hcount
  have hle : 2 ^ (8 * k) ≤ 2 ^ n.log2 := Nat.pow_le_pow_right (by decide) (by omega)
  rw [Nat.pow_mul] at hle
  exact Nat.le_trans hle (Nat.log2_self_le hpos)

/-- The digits of a number spell it. -/
@[simp] theorem toNat_ofNat (n : Nat) : (ofNat n).toNat = n := by
  rw [ofNat, toNat, ofLittleEndian_littleEndian, Nat.mod_eq_of_lt (lt_pow_count n)]

/-- The digits of a number are trimmed. -/
theorem trimmed_ofNat (n : Nat) : Trimmed (ofNat n) := by
  unfold Trimmed ofNat
  cases hcount : count n with
  | zero => simp [littleEndian]
  | succ k =>
    have hlow := pow_le_of_count_eq hcount
    have hhigh : n < 256 ^ (k + 1) := hcount ▸ lt_pow_count n
    rw [getLast?_littleEndian]
    intro hzero
    have hdigit : n / 256 ^ k < 256 := by
      rw [Nat.div_lt_iff_lt_mul (Nat.pow_pos (by decide)), Nat.mul_comm, ← Nat.pow_succ]
      exact hhigh
    have hnat : n / 256 ^ k % 256 = 0 := by
      have h := congrArg UInt8.toNat (Option.some.inj hzero)
      simpa [UInt8.toNat_ofNat'] using h
    have hpos : 0 < n / 256 ^ k := Nat.div_pos hlow (Nat.pow_pos (by decide))
    omega

/-- Trimming keeps the number. -/
@[simp] theorem toNat_trim (digits : Digits) : digits.trim.toNat = digits.toNat := by
  unfold toNat
  induction digits with
  | nil => rfl
  | cons d ds ih =>
    rw [trim]
    split
    · rename_i hrest
      rw [hrest, ofLittleEndian] at ih
      by_cases hd : d = 0 <;> simp [hd, ofLittleEndian, ← ih]
    · rw [ofLittleEndian, ofLittleEndian, ih]

/-- Trimming leaves no zero byte at the top. -/
theorem trimmed_trim (digits : Digits) : Trimmed digits.trim := by
  unfold Trimmed
  induction digits with
  | nil => simp [trim]
  | cons d ds ih =>
    rw [trim]
    split
    · by_cases hd : d = 0 <;> simp [hd]
    · rename_i hrest
      rw [List.getLast?_cons_of_ne_nil hrest]
      exact ih

/-- The most digits that a 128-bit number can have. -/
def maxNative : Nat := 16

/-- The number that the digits spell, provided there are at most sixteen of them. More are
    refused whatever they are, even if all the upper ones are zero. -/
def toNative? (digits : Digits) : Option Nat :=
  if digits.length ≤ maxNative then some digits.toNat else none

end Digits

end Scale
