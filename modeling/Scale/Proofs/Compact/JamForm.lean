import Scale.Compact.Jam
import Scale.Proofs.Digits

namespace Scale.Jam

variable {extra n : Nat}

/-- Numbers below this one can be written. -/
def capacity : Nat :=
  2 ^ 64

/-- The first byte of a form without the high bits of the value. -/
def marker (extra : Nat) : Nat :=
  256 - 2 ^ (8 - extra)

/-- A form holds the numbers below this one. -/
def limit (extra : Nat) : Nat :=
  if extra < maxExtra then 2 ^ (7 * (extra + 1)) else capacity

/-- The least number that a form is minimal for. -/
def floor (extra : Nat) : Nat :=
  if extra = 0 then 0 else 2 ^ (7 * extra)

/-- The bytes of a number in a form. -/
def spell (extra n : Nat) : List UInt8 :=
  UInt8.ofNat (marker extra + n / 256 ^ extra) :: littleEndian extra n

/-- The number that the bytes of a form spell. -/
def value (first : UInt8) (low : List UInt8) : Nat :=
  ofLittleEndian low + 256 ^ low.length * (first.toNat % 2 ^ (7 - low.length))

theorem leadingOnes_le (byte : UInt8) : leadingOnes byte ≤ maxExtra := by
  have hall : ∀ byte : Fin 256, leadingOnes (UInt8.ofNat byte) ≤ maxExtra := by decide +kernel
  simpa using hall ⟨byte.toNat, byte.toNat_lt⟩

/-- A byte is the marker of its leading ones with some bits below it. -/
theorem marker_leadingOnes (byte : UInt8) :
    marker (leadingOnes byte) + byte.toNat % 2 ^ (7 - leadingOnes byte) = byte.toNat := by
  have hall : ∀ byte : Fin 256, marker (leadingOnes (UInt8.ofNat byte)) +
      byte.val % 2 ^ (7 - leadingOnes (UInt8.ofNat byte)) = byte.val := by decide +kernel
  simpa using hall ⟨byte.toNat, byte.toNat_lt⟩

theorem marker_add_lt {high : Nat} (hextra : extra ≤ maxExtra) (hhigh : high < 2 ^ (7 - extra)) :
    marker extra + high < 256 := by
  have hall : ∀ extra : Fin 9, marker extra + 2 ^ (7 - extra.val) ≤ 256 := by decide
  have hroom := hall ⟨extra, Nat.lt_succ_of_le hextra⟩
  simp only at hroom
  omega

/-- The high bits do not reach into the marker. -/
theorem leadingOnes_marker {high : Nat} (hextra : extra ≤ maxExtra) (hhigh : high < 2 ^ (7 - extra)) :
    leadingOnes (UInt8.ofNat (marker extra + high)) = extra := by
  have hall : ∀ (extra : Fin 9) (high : Fin 128), high.val < 2 ^ (7 - extra.val) →
      leadingOnes (UInt8.ofNat (marker extra + high)) = extra := by decide +kernel
  have hsmall : 2 ^ (7 - extra) ≤ 2 ^ 7 := Nat.pow_le_pow_right (by decide) (by omega)
  exact hall ⟨extra, Nat.lt_succ_of_le hextra⟩ ⟨high, Nat.lt_of_lt_of_le hhigh hsmall⟩ hhigh

theorem limit_eq (hextra : extra ≤ maxExtra) : limit extra = 256 ^ extra * 2 ^ (7 - extra) := by
  have hall : ∀ extra : Fin 9, limit extra = 256 ^ extra.val * 2 ^ (7 - extra.val) := by decide
  exact hall ⟨extra, Nat.lt_succ_of_le hextra⟩

theorem high_lt (hextra : extra ≤ maxExtra) (hlimit : n < limit extra) :
    n / 256 ^ extra < 2 ^ (7 - extra) := by
  rw [limit_eq hextra] at hlimit
  exact Nat.div_lt_of_lt_mul hlimit

theorem limit_le_capacity (hextra : extra ≤ maxExtra) : limit extra ≤ capacity := by
  have hall : ∀ extra : Fin 9, limit extra ≤ capacity := by decide
  exact hall ⟨extra, Nat.lt_succ_of_le hextra⟩

/-- Forms that are longer than one are minimal only for numbers that it does not hold. -/
theorem limit_le_floor {more : Nat} (hextra : extra < more) (hmore : more ≤ maxExtra) :
    limit extra ≤ floor more := by
  have hlt : extra < maxExtra := Nat.lt_of_lt_of_le hextra hmore
  rw [limit, floor, if_pos hlt, if_neg (by omega)]
  exact Nat.pow_le_pow_right (by decide) (by omega)

theorem extraBytes_le (n : Nat) : extraBytes n ≤ maxExtra := by
  unfold extraBytes
  cases hfind : (List.range maxExtra).find? fun extra => decide (n < 2 ^ (7 * (extra + 1))) with
  | none => exact Nat.le_refl _
  | some extra => exact Nat.le_of_lt (List.mem_range.1 (List.mem_of_find?_eq_some hfind))

theorem lt_limit_extraBytes (hlt : n < capacity) : n < limit (extraBytes n) := by
  unfold extraBytes
  cases hfind : (List.range maxExtra).find? fun extra => decide (n < 2 ^ (7 * (extra + 1))) with
  | none => exact hlt
  | some extra =>
    obtain ⟨hfits, hmem, _⟩ := List.find?_range_eq_some.1 hfind
    rw [Option.getD_some, limit, if_pos (List.mem_range.1 hmem)]
    exact of_decide_eq_true hfits

theorem floor_extraBytes_le (n : Nat) : floor (extraBytes n) ≤ n := by
  have hbelow : ∀ {extra : Nat}, (extra ≠ 0 → ¬ n < 2 ^ (7 * (extra - 1 + 1))) → floor extra ≤ n := by
    intro extra hnot
    unfold floor
    split
    · exact Nat.zero_le n
    · rename_i hpos
      have hle := Nat.not_lt.1 (hnot hpos)
      rwa [Nat.sub_add_cancel (by omega)] at hle
  unfold extraBytes
  cases hfind : (List.range maxExtra).find? fun extra => decide (n < 2 ^ (7 * (extra + 1))) with
  | none =>
    refine hbelow fun _ hlt => ?_
    exact List.find?_eq_none.1 hfind 7 (by decide) (decide_eq_true hlt)
  | some extra =>
    obtain ⟨_, _, hfirst⟩ := List.find?_range_eq_some.1 hfind
    refine hbelow fun hpos => ?_
    have hnot := hfirst (extra - 1) (Nat.sub_one_lt hpos)
    simpa using hnot

/-- Only the form that is written both holds a number and is minimal for it. -/
theorem eq_extraBytes (hextra : extra ≤ maxExtra) (hlimit : n < limit extra)
    (hfloor : floor extra ≤ n) : extra = extraBytes n := by
  have hcapacity : n < capacity := Nat.lt_of_lt_of_le hlimit (limit_le_capacity hextra)
  apply Nat.le_antisymm
  · refine Nat.not_lt.1 fun hless => ?_
    have hle := limit_le_floor hless hextra
    have hlt := lt_limit_extraBytes hcapacity
    omega
  · refine Nat.not_lt.1 fun hmore => ?_
    have hle := limit_le_floor hmore (extraBytes_le n)
    have hlow := floor_extraBytes_le n
    omega

theorem length_spell (extra n : Nat) : (spell extra n).length = extra + 1 := by
  rw [spell, List.length_cons, length_littleEndian]

/-- The bits below the marker of a byte are the high bits put there. -/
theorem marker_mod {high : Nat} (hextra : extra ≤ maxExtra) (hhigh : high < 2 ^ (7 - extra)) :
    (UInt8.ofNat (marker extra + high)).toNat % 2 ^ (7 - extra) = high := by
  have hbyte : (UInt8.ofNat (marker extra + high)).toNat = marker extra + high := by
    rw [UInt8.toNat_ofNat', Nat.mod_eq_of_lt (marker_add_lt hextra hhigh)]
  have hones := marker_leadingOnes (UInt8.ofNat (marker extra + high))
  rw [leadingOnes_marker hextra hhigh, hbyte] at hones
  rw [hbyte]
  omega

/-- A spelled number is read back out of its form. -/
theorem value_spell (hextra : extra ≤ maxExtra) (hlimit : n < limit extra) :
    value (UInt8.ofNat (marker extra + n / 256 ^ extra)) (littleEndian extra n) = n := by
  have hhigh := high_lt hextra hlimit
  rw [value, length_littleEndian, marker_mod hextra hhigh, ofLittleEndian_littleEndian,
    Nat.mod_add_div]

theorem value_lt_limit {first : UInt8} {low : List UInt8} (hlength : low.length = leadingOnes first) :
    value first low < limit low.length := by
  have hlow := ofLittleEndian_lt low
  have hhigh : first.toNat % 2 ^ (7 - low.length) < 2 ^ (7 - low.length) :=
    Nat.mod_lt _ (Nat.pow_pos (by decide))
  rw [limit_eq (hlength ▸ leadingOnes_le first), value]
  calc ofLittleEndian low + 256 ^ low.length * (first.toNat % 2 ^ (7 - low.length))
      < 256 ^ low.length + 256 ^ low.length * (first.toNat % 2 ^ (7 - low.length)) :=
        Nat.add_lt_add_right hlow _
    _ = 256 ^ low.length * (first.toNat % 2 ^ (7 - low.length) + 1) := by
        rw [Nat.mul_add, Nat.mul_one, Nat.add_comm]
    _ ≤ 256 ^ low.length * 2 ^ (7 - low.length) := Nat.mul_le_mul_left _ hhigh

/-- The bytes of a form are those of the number that they spell. -/
theorem spell_value {first : UInt8} {low : List UInt8} (hlength : low.length = leadingOnes first) :
    spell low.length (value first low) = first :: low := by
  have hlow := ofLittleEndian_lt low
  have hpos : 0 < 256 ^ low.length := Nat.pow_pos (by decide)
  have hhigh : value first low / 256 ^ low.length = first.toNat % 2 ^ (7 - low.length) := by
    rw [value, Nat.add_mul_div_left _ _ hpos, Nat.div_eq_of_lt hlow, Nat.zero_add]
  have hrest : littleEndian low.length (value first low) = low := by
    have hspelled := littleEndian_ofLittleEndian_of_length (length_littleEndian low.length (value first low))
    rw [ofLittleEndian_littleEndian, value, Nat.add_mul_mod_self_left, Nat.mod_eq_of_lt hlow,
      littleEndian_ofLittleEndian] at hspelled
    exact hspelled.symm
  rw [spell, hhigh, hrest, hlength, marker_leadingOnes, UInt8.ofNat_toNat]

end Scale.Jam
