import Scale.Proofs.Digits
import Scale.Proofs.Safety.Operations

namespace Scale

namespace Digits

/-- The index of the last digit that is not zero. -/
def lastNonzero? : Digits → Option Nat
  | [] => none
  | digit :: digits =>
    match lastNonzero? digits with
    | some i => some (i + 1)
    | none => if digit = 0 then none else some 0

/-- The number of digits up to the last one that is not zero. -/
def significant (digits : Digits) : Nat :=
  match lastNonzero? digits with
  | some i => i + 1
  | none => 0

theorem significant_cons (digit : UInt8) (digits : Digits) :
    significant (digit :: digits) =
      if significant digits = 0 ∧ digit = 0 then 0 else significant digits + 1 := by
  unfold significant
  rw [lastNonzero?]
  cases lastNonzero? digits with
  | some i => simp
  | none => by_cases hdigit : digit = 0 <;> simp [hdigit]

theorem significant_le (digits : Digits) : significant digits ≤ digits.length := by
  induction digits with
  | nil => exact Nat.le_refl _
  | cons digit digits ih =>
    rw [significant_cons, List.length_cons]
    split <;> omega

theorem take_significant (digits : Digits) : digits.take (significant digits) = digits.trim := by
  induction digits with
  | nil => rfl
  | cons digit digits ih =>
    have hlength : (trim digits).length = significant digits := by
      rw [← ih, List.length_take_of_le (significant_le digits)]
    rw [significant_cons, trim]
    cases htrim : trim digits with
    | nil =>
      have hzero : significant digits = 0 := by rw [← hlength, htrim]; rfl
      by_cases hdigit : digit = 0 <;> simp [hzero, hdigit]
    | cons other others =>
      have hpos : significant digits ≠ 0 := by rw [← hlength, htrim]; exact Nat.succ_ne_zero _
      rw [if_neg fun hboth => hpos hboth.1, List.take_succ_cons, ih, htrim]

/-- The number of zero bits above the highest one of a word. -/
def leadingZeros (width n : Nat) : Nat :=
  width - (if n = 0 then 0 else n.log2 + 1)

end Digits

namespace Checked

open Digits

/-- Drops the zero bytes at the top. -/
def trim (digits : Digits) : Except Fault Digits :=
  Buffer.upTo digits (significant digits)

/-- The digits of a 128-bit word. -/
def digitsOf (n : Nat) : Except Fault Digits := do
  let count ← Word.sub maxNative (leadingZeros 128 n / 8)
  Buffer.upTo (littleEndian maxNative n) count

/-- The 128-bit word that the digits spell, provided there are at most sixteen of them. -/
def toNative? (digits : Digits) : Except Fault (Option Nat) :=
  if maxNative < digits.length then
    return none
  else do
    let buffer ← Buffer.fillUpTo (List.replicate maxNative 0) digits.length digits
    return some (ofLittleEndian buffer)

/-- The bytes of a number of any size. Zero has one of them. -/
def bytesOfBig (n : Nat) : List UInt8 :=
  if n = 0 then [0] else Digits.ofNat n

theorem trim_eq (digits : Digits) : trim digits = .ok digits.trim := by
  rw [trim, Buffer.upTo_of_le (significant_le digits), take_significant]

theorem ofLittleEndian_append_zeros (digits : List UInt8) (zeros : Nat) :
    ofLittleEndian (digits ++ List.replicate zeros 0) = ofLittleEndian digits := by
  have hzeros : ofLittleEndian (List.replicate zeros 0) = 0 := by
    induction zeros with
    | zero => rfl
    | succ zeros ih => rw [List.replicate_succ, ofLittleEndian, ih]; rfl
  rw [ofLittleEndian_append, hzeros, Nat.mul_zero, Nat.add_zero]

/-- The low bytes of a number are those of the number in fewer bytes. -/
theorem take_littleEndian {count width : Nat} (hle : count ≤ width) (n : Nat) :
    (littleEndian width n).take count = littleEndian count n := by
  induction count generalizing width n with
  | zero => rfl
  | succ count ih =>
    obtain ⟨width, rfl⟩ := Nat.exists_eq_add_of_le' (Nat.lt_of_lt_of_le (Nat.succ_pos _) hle)
    rw [littleEndian, littleEndian, List.take_succ_cons, ih (Nat.le_of_succ_le_succ hle)]

/-- Leading zeros come to the digits that a word does not need. -/
theorem sub_leadingZeros {n : Nat} (hlt : n < 2 ^ 128) :
    leadingZeros 128 n / 8 ≤ maxNative ∧ maxNative - leadingZeros 128 n / 8 = Digits.count n := by
  unfold leadingZeros maxNative Digits.count
  by_cases hzero : n = 0
  · simp [hzero]
  · have hlog : n.log2 < 128 := (Nat.log2_lt hzero).2 hlt
    simp only [hzero, if_false]
    omega

theorem digitsOf_eq {n : Nat} (hlt : n < 2 ^ 128) : digitsOf n = .ok (Digits.ofNat n) := by
  obtain ⟨hle, hcount⟩ := sub_leadingZeros hlt
  have hroom : Digits.count n ≤ (littleEndian maxNative n).length := by
    rw [length_littleEndian]
    omega
  rw [digitsOf, Word.sub_of_le hle, ok_bind, hcount, Buffer.upTo_of_le hroom, Digits.ofNat,
    take_littleEndian (by omega)]

theorem toNative?_eq (digits : Digits) : toNative? digits = .ok digits.toNative? := by
  unfold toNative? Digits.toNative?
  by_cases hle : digits.length ≤ maxNative
  · rw [if_neg (Nat.not_lt.2 hle), if_pos hle,
      Buffer.fillUpTo_of_le rfl (by rwa [List.length_replicate]), ok_bind, List.drop_replicate,
      ofLittleEndian_append_zeros]
    rfl
  · rw [if_pos (Nat.not_le.1 hle), if_neg hle]
    rfl

theorem trim_bytesOfBig (n : Nat) : trim (bytesOfBig n) = .ok (Digits.ofNat n) := by
  rw [trim_eq, bytesOfBig, trim_eq_ofNat]
  split
  · next hzero => rw [hzero]; rfl
  · rw [toNat_ofNat]

end Checked

end Scale
