import Scale.Proofs.Compact.JamGrammar
import Scale.Proofs.Compact.Types

namespace Scale

namespace Digits

variable {digits : Digits} {n : Nat}

/-- The digits are those of the number, the least significant first and no zero at the top. Zero has
    none. -/
structure Spell (digits : Digits) (n : Nat) : Prop where
  toNat_eq : digits.toNat = n
  digit_eq : ∀ i, i < digits.length → digits[i]? = some (UInt8.ofNat (n / 256 ^ i % 256))
  trimmed : digits.Trimmed
  nil_iff : digits = [] ↔ n = 0

theorem spell_ofNat (n : Nat) : (ofNat n).Spell n where
  toNat_eq := toNat_ofNat n
  digit_eq := by
    intro i hi
    rw [length_ofNat] at hi
    exact getElem?_littleEndian hi n
  trimmed := trimmed_ofNat n
  nil_iff := by
    have hnone : count n ≤ 0 ↔ n < 1 := count_le_iff
    rw [← List.length_eq_zero_iff, length_ofNat]
    omega

/-- Nothing else are the digits of the number. -/
theorem spell_iff : digits.Spell n ↔ digits = ofNat n := by
  constructor
  · intro hspell
    rw [← hspell.toNat_eq, ofNat_toNat hspell.trimmed]
  · rintro rfl
    exact spell_ofNat n

theorem spell_trim (bytes : List UInt8) : (trim bytes).Spell (ofLittleEndian bytes) :=
  spell_iff.2 (trim_eq_ofNat bytes)

theorem spell_toNat (htrimmed : digits.Trimmed) : digits.Spell digits.toNat :=
  spell_iff.2 (ofNat_toNat htrimmed).symm

/-- Sixteen digits are enough for the numbers of 128 bits, and for no others. -/
theorem Spell.length_le_iff (hspell : digits.Spell n) : digits.length ≤ maxNative ↔ n < 2 ^ 128 := by
  rw [spell_iff.1 hspell, length_ofNat, count_le_iff]
  exact Iff.rfl

theorem Spell.toNative?_eq (hspell : digits.Spell n) :
    digits.toNative? = if n < 2 ^ 128 then some n else none := by
  simp only [toNative?, hspell.length_le_iff, hspell.toNat_eq]

end Digits

theorem IntegerType.toDigits_eq_ok_iff {n : Int} {digits : Digits} :
    toDigits n = .ok digits ↔ 0 ≤ n ∧ digits.Spell n.toNat := by
  rw [toDigits, Digits.spell_iff]
  by_cases hneg : n < 0
  · rw [if_pos hneg]
    constructor
    · intro hdigits
      cases hdigits
    · intro hboth
      exact absurd hneg (Int.not_lt.2 hboth.1)
  · rw [if_neg hneg]
    constructor
    · intro hdigits
      exact ⟨Int.not_lt.1 hneg, (Except.ok.inj hdigits).symm⟩
    · rintro ⟨_, rfl⟩
      rfl

/-- What is taken in the classic layout are the digits of the number that the announced form holds. -/
theorem Classic.take_eq_ok_iff_spell {source after : Source} {digits : Digits} :
    take source = .ok digits after ↔ ∃ first tail, source.bytes = first :: tail ∧
      let form := Form.ofHeader first
      let n := form.value (source.bytes.take form.length)
      form.length ≤ source.bytes.length ∧ form.Minimal n ∧ digits.Spell n ∧
        after = source.withBytes (source.bytes.drop form.length) := by
  constructor
  · intro hrun
    obtain ⟨first, tail, hbytes, hlong⟩ | hnil | ⟨first, tail, hbytes, hshort⟩ :=
      complete_or_truncated source
    · rw [take_of_form hbytes hlong] at hrun
      split at hrun
      · rename_i hfloor
        obtain ⟨rfl, rfl⟩ := EStateM.Result.ok.inj hrun
        exact ⟨first, tail, hbytes, hlong, Form.minimal_iff.2 hfloor, Digits.spell_ofNat _, rfl⟩
      · cases hrun
    · rw [take_of_nil hnil] at hrun
      cases hrun
    · rw [take_of_truncated hbytes hshort] at hrun
      cases hrun
  · rintro ⟨first, tail, hbytes, hlong, hminimal, hspell, rfl⟩
    rw [take_of_form hbytes hlong, if_pos (Form.minimal_iff.1 hminimal), Digits.spell_iff.1 hspell]

/-- So it is in the other layout. -/
theorem Jam.take_eq_ok_iff_spell {source after : Source} {digits : Digits} :
    take source = .ok digits after ↔ ∃ first tail, source.bytes = first :: tail ∧
      let extra := leadingOnes first
      let n := value first (tail.take extra)
      extra ≤ tail.length ∧ floor extra ≤ n ∧ digits.Spell n ∧
        after = source.withBytes (tail.drop extra) := by
  constructor
  · intro hrun
    cases hbytes : source.bytes with
    | nil =>
      rw [take_of_nil hbytes] at hrun
      cases hrun
    | cons first tail =>
      by_cases hlong : leadingOnes first ≤ tail.length
      · rw [take_of_form hbytes hlong] at hrun
        split at hrun
        · rename_i hfloor
          obtain ⟨rfl, rfl⟩ := EStateM.Result.ok.inj hrun
          exact ⟨first, tail, rfl, hlong, hfloor, Digits.spell_ofNat _, rfl⟩
        · cases hrun
      · rw [take_of_truncated hbytes (Nat.not_le.1 hlong)] at hrun
        cases hrun
  · rintro ⟨first, tail, hbytes, hlong, hfloor, hspell, rfl⟩
    rw [take_of_form hbytes hlong, if_pos hfloor, Digits.spell_iff.1 hspell]

namespace Digits

/-- Whether digits are cut off a machine word behind its leading zeros, off the bytes of a number behind
    the last one that is not zero, or are taken off a source in either layout, they are trimmed, and they
    spell the number that is meant. A word is read back from its digits, and trimmed digits are refused
    as a word just when their number is too great. -/
theorem always_trimmed :
    (∀ bytes : List UInt8, Checked.trim bytes = .ok (trim bytes) ∧
      (trim bytes).Spell (ofLittleEndian bytes)) ∧
    (∀ n, n < 2 ^ 128 → Checked.digitsOf n = .ok (ofNat n) ∧ (ofNat n).Spell n ∧
      Checked.toNative? (ofNat n) = .ok (some n)) ∧
    (∀ digits : Digits, digits.Trimmed → Checked.toNative? digits = .ok digits.toNative? ∧
      (digits.toNative? = none ↔ 2 ^ 128 ≤ digits.toNat)) ∧
    (∀ (t : IntegerType) (n : Int), t.contains n = true →
      Checked.toDigits t n = Checked.lift (MonadExcept.ofExcept (IntegerType.toDigits n)) ∧
      ∀ digits, IntegerType.toDigits n = .ok digits ↔ 0 ≤ n ∧ digits.Spell n.toNat) ∧
    (Checked.Classic.take = Checked.lift Classic.take ∧
      ∀ (source after : Source) (digits : Digits), Classic.take source = .ok digits after ↔
        ∃ first tail, source.bytes = first :: tail ∧
          let form := Classic.Form.ofHeader first
          let n := form.value (source.bytes.take form.length)
          form.length ≤ source.bytes.length ∧ form.Minimal n ∧ digits.Spell n ∧
            after = source.withBytes (source.bytes.drop form.length)) ∧
    Checked.Jam.take = Checked.lift Jam.take ∧
      ∀ (source after : Source) (digits : Digits), Jam.take source = .ok digits after ↔
        ∃ first tail, source.bytes = first :: tail ∧
          let extra := Jam.leadingOnes first
          let n := Jam.value first (tail.take extra)
          extra ≤ tail.length ∧ Jam.floor extra ≤ n ∧ digits.Spell n ∧
            after = source.withBytes (tail.drop extra) := by
  refine ⟨fun bytes => ⟨Checked.trim_eq bytes, spell_trim bytes⟩, fun n hlt => ?_,
    fun digits htrimmed => ⟨Checked.toNative?_eq digits, ?_⟩,
    fun t n hcontains => ⟨Checked.toDigits_eq hcontains, fun _ => IntegerType.toDigits_eq_ok_iff⟩,
    ⟨Checked.Classic.take_eq, fun _ _ _ => Classic.take_eq_ok_iff_spell⟩,
    Checked.Jam.take_eq, fun _ _ _ => Jam.take_eq_ok_iff_spell⟩
  · have hspell := spell_ofNat n
    refine ⟨Checked.digitsOf_eq hlt, hspell, ?_⟩
    rw [Checked.toNative?_eq, hspell.toNative?_eq, if_pos hlt]
  · rw [(spell_toNat htrimmed).toNative?_eq]
    by_cases hlt : digits.toNat < 2 ^ 128
    · rw [if_pos hlt]
      exact iff_of_false nofun (Nat.not_le.2 hlt)
    · rw [if_neg hlt]
      exact iff_of_true rfl (Nat.not_lt.1 hlt)

end Digits

end Scale
