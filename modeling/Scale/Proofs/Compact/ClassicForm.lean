import Scale.Compact.Classic
import Scale.Proofs.Digits

namespace Scale.Classic

/-- Numbers below this one can be written. -/
def capacity : Nat :=
  2 ^ 536

theorem capacity_eq : capacity = 256 ^ maxLong := by
  rw [capacity, show 536 = 8 * maxLong from rfl, Nat.pow_mul]

/-- The forms of a number. The header of a long form has six bits for the number of its digits,
    counted from four. -/
inductive Form where
  | single
  | double
  | quadruple
  | long (extra : Fin 64)
  deriving DecidableEq

namespace Form

/-- The number of bytes that a form takes. -/
def length : Form → Nat
  | single => 1
  | double => 2
  | quadruple => 4
  | long extra => 1 + (extra + minLong)

theorem length_pos (form : Form) : 0 < form.length := by
  cases form <;> simp only [length] <;> omega

/-- A form holds the numbers below this one. -/
def limit : Form → Nat
  | single => 2 ^ 6
  | double => 2 ^ 14
  | quadruple => 2 ^ 30
  | long extra => 256 ^ (extra + minLong)

/-- Whether a form is able to hold a number. -/
def Holds (form : Form) (n : Nat) : Prop :=
  n < form.limit

/-- No strictly shorter form is able to hold the number. -/
def Minimal (form : Form) (n : Nat) : Prop :=
  ∀ other : Form, other.length < form.length → ¬ other.Holds n

/-- The bytes of a number in a form. -/
def spell : Form → Nat → List UInt8
  | single, n => [UInt8.ofNat (4 * n)]
  | double, n => littleEndian 2 (4 * n + 1)
  | quadruple, n => littleEndian 4 (4 * n + 2)
  | long extra, n => UInt8.ofNat (4 * extra + 3) :: littleEndian (extra + minLong) n

theorem div_four_lt (first : UInt8) : first.toNat / 4 < 64 := by
  have hlt := first.toNat_lt
  omega

/-- The form that a first byte announces. -/
def ofHeader (first : UInt8) : Form :=
  match first.toNat % 4 with
  | 0 => single
  | 1 => double
  | 2 => quadruple
  | _ => long ⟨first.toNat / 4, div_four_lt first⟩

theorem mode_cases (first : UInt8) : first.toNat % 4 = 0 ∨ first.toNat % 4 = 1 ∨
    first.toNat % 4 = 2 ∨ first.toNat % 4 = 3 := by
  omega

/-- The number that the bytes of a form spell, whether or not a shorter form could hold it. -/
def value : Form → List UInt8 → Nat
  | single, bytes => ofLittleEndian bytes / 4
  | double, bytes => ofLittleEndian bytes / 4
  | quadruple, bytes => ofLittleEndian bytes / 4
  | long _, bytes => ofLittleEndian bytes.tail

/-- The least number that a form is minimal for. -/
def floor : Form → Nat
  | single => 0
  | double => 2 ^ 6
  | quadruple => 2 ^ 14
  | long extra => if extra.val = 0 then 2 ^ 30 else 256 ^ (extra.val + 3)

theorem quadruple_limit_le_pow {k : Nat} (hk : 4 ≤ k) : 2 ^ 30 ≤ 256 ^ k :=
  Nat.le_trans (by decide : 2 ^ 30 ≤ 256 ^ 4) (Nat.pow_le_pow_right (by decide) hk)

/-- Each form that is shorter than another holds fewer numbers than the other is minimal for. -/
theorem limit_le_floor {form other : Form} (hlength : other.length < form.length) :
    other.limit ≤ form.floor := by
  cases form with
  | single => cases other <;> simp only [length] at hlength <;> omega
  | double => cases other <;> simp only [length, limit, floor, minLong] at hlength ⊢ <;> omega
  | quadruple =>
    cases other <;> simp only [length, limit, floor, minLong] at hlength ⊢ <;> omega
  | long extra =>
    by_cases hzero : extra.val = 0
    · cases other <;> simp only [length, limit, floor, minLong, hzero, if_true] at hlength ⊢ <;> omega
    · have hroom := quadruple_limit_le_pow (k := extra.val + 3) (by omega)
      simp only [floor, if_neg hzero]
      cases other with
      | single => exact Nat.le_trans (by decide : 2 ^ 6 ≤ 2 ^ 30) hroom
      | double => exact Nat.le_trans (by decide : 2 ^ 14 ≤ 2 ^ 30) hroom
      | quadruple => exact hroom
      | long fewer =>
        have hfewer : fewer.val + minLong ≤ extra.val + 3 := by
          simp only [length, minLong] at hlength ⊢
          omega
        exact Nat.pow_le_pow_right (by decide) hfewer

/-- A form that is not the shortest one has a shorter one that holds all numbers below it. -/
theorem exists_limit_eq_floor {form : Form} (hform : form ≠ single) :
    ∃ other : Form, other.length < form.length ∧ other.limit = form.floor := by
  cases form with
  | single => exact absurd rfl hform
  | double => exact ⟨single, by decide, rfl⟩
  | quadruple => exact ⟨double, by decide, rfl⟩
  | long extra =>
    by_cases hzero : extra.val = 0
    · exact ⟨quadruple, by simp only [length, minLong]; omega, by simp [limit, floor, hzero]⟩
    · refine ⟨long ⟨extra.val - 1, by omega⟩, by simp only [length]; omega, ?_⟩
      have hsum : extra.val - 1 + minLong = extra.val + 3 := by simp only [minLong]; omega
      simp only [limit, floor, if_neg hzero, hsum]

theorem minimal_iff {form : Form} {n : Nat} : form.Minimal n ↔ form.floor ≤ n := by
  constructor
  · intro hminimal
    by_cases hform : form = single
    · rw [hform]
      exact Nat.zero_le n
    · obtain ⟨other, hlength, hlimit⟩ := exists_limit_eq_floor hform
      have hnot := hminimal other hlength
      rwa [Holds, hlimit, Nat.not_lt] at hnot
  · intro hfloor other hlength hholds
    exact Nat.not_lt.2 (Nat.le_trans (limit_le_floor hlength) hfloor) hholds

/-- The shortest form of a number that can be written. -/
def shortest (n : Nat) : Form :=
  if n < singleLimit then single
  else if n < doubleLimit then double
  else if n < quadrupleLimit then quadruple
  else long (Fin.ofNat 64 (Digits.count n - minLong))

/-- A number past the quadruple form has between four and 67 digits. -/
theorem count_bounds {n : Nat} (hlow : quadrupleLimit ≤ n) (hhigh : n < capacity) :
    minLong ≤ Digits.count n ∧ Digits.count n ≤ maxLong := by
  rw [capacity_eq] at hhigh
  exact ⟨Digits.lt_count_iff.2 (Nat.le_trans (by decide : 256 ^ 3 ≤ 2 ^ 30) hlow),
    Digits.count_le_iff.2 hhigh⟩

theorem shortest_eq_long {n : Nat} (hlow : quadrupleLimit ≤ n) (hhigh : n < capacity) :
    ∃ extra : Fin 64, shortest n = long extra ∧ extra + minLong = Digits.count n := by
  obtain ⟨hmin, hmax⟩ := count_bounds hlow hhigh
  refine ⟨Fin.ofNat 64 (Digits.count n - minLong), ?_, ?_⟩
  · unfold quadrupleLimit at hlow
    rw [shortest, if_neg (by unfold singleLimit; omega), if_neg (by unfold doubleLimit; omega),
      if_neg (by unfold quadrupleLimit; omega)]
  · simp only [minLong, maxLong, Fin.val_ofNat] at *
    omega

theorem holds_shortest {n : Nat} (hlt : n < capacity) : (shortest n).Holds n := by
  by_cases hlow : quadrupleLimit ≤ n
  · obtain ⟨extra, hshortest, hcount⟩ := shortest_eq_long hlow hlt
    rw [hshortest, Holds, limit, hcount]
    exact Digits.lt_pow_count n
  · unfold shortest
    split
    · assumption
    · split
      · assumption
      · rw [if_pos (Nat.not_le.1 hlow)]
        exact Nat.not_le.1 hlow

theorem minimal_shortest {n : Nat} (hlt : n < capacity) : (shortest n).Minimal n := by
  rw [minimal_iff]
  by_cases hlow : quadrupleLimit ≤ n
  · obtain ⟨extra, hshortest, hcount⟩ := shortest_eq_long hlow hlt
    rw [hshortest, floor]
    split
    · exact hlow
    · have hdigits : extra.val + 3 < Digits.count n := by
        simp only [minLong] at hcount
        omega
      exact Digits.lt_count_iff.1 hdigits
  · unfold shortest
    split
    · exact Nat.zero_le n
    · split
      · exact Nat.not_lt.1 ‹¬ n < singleLimit›
      · rw [if_pos (Nat.not_le.1 hlow)]
        exact Nat.not_lt.1 ‹¬ n < doubleLimit›

theorem length_spell (form : Form) (n : Nat) : (form.spell n).length = form.length := by
  cases form with
  | single => rfl
  | double => exact length_littleEndian _ _
  | quadruple => exact length_littleEndian _ _
  | long extra => simp [spell, length, Nat.add_comm]

/-- A spelled number is read back out of its form. -/
theorem value_spell {form : Form} {n : Nat} (hholds : form.Holds n) :
    form.value (form.spell n) = n := by
  cases form with
  | single =>
    have hlt : n < 2 ^ 6 := hholds
    simp only [value, spell, ofLittleEndian, UInt8.toNat_ofNat']
    omega
  | double =>
    have hlt : n < 2 ^ 14 := hholds
    rw [value, spell, ofLittleEndian_littleEndian_of_lt (by omega)]
    omega
  | quadruple =>
    have hlt : n < 2 ^ 30 := hholds
    rw [value, spell, ofLittleEndian_littleEndian_of_lt (by omega)]
    omega
  | long extra => exact ofLittleEndian_littleEndian_of_lt hholds

/-- The first byte of a spelled number announces its form. -/
theorem ofHeader_spell {form : Form} {n : Nat} (hholds : form.Holds n) {first : UInt8}
    {tail : List UInt8} (hspell : form.spell n = first :: tail) : ofHeader first = form := by
  have hbyte : ∀ {m : Nat}, first = UInt8.ofNat m → m < 256 → first.toNat = m := by
    intro m hfirst hlt
    rw [hfirst, UInt8.toNat_ofNat', Nat.mod_eq_of_lt hlt]
  cases form with
  | single =>
    have hlt : n < 2 ^ 6 := hholds
    have hfirst := hbyte (List.cons.inj hspell).1.symm (by omega)
    have hmode : first.toNat % 4 = 0 := by omega
    simp only [ofHeader, hmode]
  | double =>
    have hfirst := hbyte (List.cons.inj hspell).1.symm (by omega)
    have hmode : first.toNat % 4 = 1 := by omega
    simp only [ofHeader, hmode]
  | quadruple =>
    have hfirst := hbyte (List.cons.inj hspell).1.symm (by omega)
    have hmode : first.toNat % 4 = 2 := by omega
    simp only [ofHeader, hmode]
  | long extra =>
    have hfirst := hbyte (List.cons.inj hspell).1.symm (by omega)
    have hmode : first.toNat % 4 = 3 := by omega
    have hextra : first.toNat / 4 = extra.val := by omega
    simp only [ofHeader, hmode, hextra]

/-- The bytes of a form are those of the number that they spell. -/
theorem spell_value {first : UInt8} {tail : List UInt8}
    (hlength : (first :: tail).length = (ofHeader first).length) :
    (ofHeader first).spell ((ofHeader first).value (first :: tail)) = first :: tail := by
  have hlt := first.toNat_lt
  rcases mode_cases first with hmode | hmode | hmode | hmode
  · have hform : ofHeader first = single := by simp only [ofHeader, hmode]
    rw [hform] at hlength ⊢
    have htail : tail = [] := by simpa [length] using hlength
    have hfour : 4 * (first.toNat / 4) = first.toNat := by omega
    subst htail
    simp [spell, value, ofLittleEndian, hfour]
  · have hform : ofHeader first = double := by simp only [ofHeader, hmode]
    rw [hform] at hlength ⊢
    have hnumber : 4 * (ofLittleEndian (first :: tail) / 4) + 1 = ofLittleEndian (first :: tail) := by
      rw [ofLittleEndian]
      omega
    simp only [spell, value, hnumber]
    exact littleEndian_ofLittleEndian_of_length hlength
  · have hform : ofHeader first = quadruple := by simp only [ofHeader, hmode]
    rw [hform] at hlength ⊢
    have hnumber : 4 * (ofLittleEndian (first :: tail) / 4) + 2 = ofLittleEndian (first :: tail) := by
      rw [ofLittleEndian]
      omega
    simp only [spell, value, hnumber]
    exact littleEndian_ofLittleEndian_of_length hlength
  · have hform : ofHeader first = long ⟨first.toNat / 4, by omega⟩ := by
      simp only [ofHeader, hmode]
    rw [hform] at hlength ⊢
    have hheader : 4 * (first.toNat / 4) + 3 = first.toNat := by omega
    have htail : tail.length = first.toNat / 4 + minLong := by
      simp only [length, List.length_cons] at hlength
      omega
    simp only [spell, value, List.tail_cons, hheader, UInt8.ofNat_toNat,
      littleEndian_ofLittleEndian_of_length htail]

end Form

end Scale.Classic
