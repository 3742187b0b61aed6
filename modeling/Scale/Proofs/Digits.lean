import Scale.Digits

namespace Scale

theorem ofLittleEndian_append (low high : List UInt8) :
    ofLittleEndian (low ++ high) =
      ofLittleEndian low + 256 ^ low.length * ofLittleEndian high := by
  induction low with
  | nil => simp [ofLittleEndian]
  | cons b low ih =>
    rw [List.cons_append, ofLittleEndian, ih, ofLittleEndian, List.length_cons, Nat.pow_succ,
      Nat.mul_add, Nat.mul_comm (256 ^ low.length) 256, ← Nat.mul_assoc, Nat.add_assoc]

theorem ofLittleEndian_littleEndian_of_lt {width n : Nat} (hlt : n < 256 ^ width) :
    ofLittleEndian (littleEndian width n) = n := by
  rw [ofLittleEndian_littleEndian, Nat.mod_eq_of_lt hlt]

theorem littleEndian_ofLittleEndian_of_length {width : Nat} {bytes : List UInt8}
    (hlength : bytes.length = width) : littleEndian width (ofLittleEndian bytes) = bytes := by
  rw [← hlength, littleEndian_ofLittleEndian]

/-- The top byte is zero just when the bytes below it spell the whole number. -/
theorem getLast?_eq_zero_iff {bytes : List UInt8} {k : Nat} (hlength : bytes.length = k + 1) :
    bytes.getLast? = some 0 ↔ ofLittleEndian bytes < 256 ^ k := by
  have hne : bytes ≠ [] := by
    rintro rfl
    simp at hlength
  obtain ⟨low, top, rfl⟩ : ∃ low top, bytes = low ++ [top] :=
    ⟨_, _, (List.dropLast_concat_getLast hne).symm⟩
  have hlow : low.length = k := by simpa using hlength
  have hbound := ofLittleEndian_lt low
  rw [hlow] at hbound
  rw [List.getLast?_concat, Option.some.injEq, ofLittleEndian_append, hlow, ofLittleEndian,
    ofLittleEndian, Nat.mul_zero, Nat.add_zero]
  constructor
  · rintro rfl
    simpa using hbound
  · intro hlt
    have htop : top.toNat = 0 := by
      refine Nat.eq_zero_of_not_pos fun hpos => ?_
      have hle : 256 ^ k * 1 ≤ 256 ^ k * top.toNat := Nat.mul_le_mul_left _ hpos
      omega
    exact UInt8.toNat_inj.1 htop

namespace Digits

theorem length_ofNat (n : Nat) : (ofNat n).length = count n :=
  length_littleEndian _ _

theorem count_le_iff {n k : Nat} : count n ≤ k ↔ n < 256 ^ k := by
  constructor
  · intro hle
    exact Nat.lt_of_lt_of_le (lt_pow_count n) (Nat.pow_le_pow_right (by decide) hle)
  · intro hlt
    cases hcount : count n with
    | zero => exact Nat.zero_le k
    | succ j =>
      have hlow := pow_le_of_count_eq hcount
      exact (Nat.pow_lt_pow_iff_right (by decide)).1 (Nat.lt_of_le_of_lt hlow hlt)

theorem lt_count_iff {n k : Nat} : k < count n ↔ 256 ^ k ≤ n := by
  rw [← Nat.not_le, count_le_iff, Nat.not_lt]

/-- Trimmed digits are the digits of the number that they spell. -/
theorem ofNat_toNat {digits : Digits} (htrimmed : digits.Trimmed) :
    ofNat digits.toNat = digits := by
  have hcount : count digits.toNat = digits.length := by
    apply Nat.le_antisymm
    · exact count_le_iff.2 (ofLittleEndian_lt digits)
    · cases hlength : digits.length with
      | zero => exact Nat.zero_le _
      | succ k =>
        have htop : ¬ ofLittleEndian digits < 256 ^ k :=
          fun hlt => htrimmed ((getLast?_eq_zero_iff hlength).2 hlt)
        exact lt_count_iff.2 (Nat.not_lt.1 htop)
  rw [ofNat, hcount]
  exact littleEndian_ofLittleEndian digits

/-- Trimming gives the digits of the number. -/
theorem trim_eq_ofNat (digits : Digits) : digits.trim = ofNat digits.toNat := by
  rw [← toNat_trim, ofNat_toNat (trimmed_trim digits)]

end Digits

end Scale
