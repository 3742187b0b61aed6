import Scale.Proofs.Reading.Equations
import Scale.Proofs.Safety.Integers
import Scale.Proofs.Writing.Equations
import Scale.Proofs.Writing.Verdicts

namespace Scale

/-- The bytes that stand for an integer, unless it has none. -/
def Scheme.coded (scheme : Scheme) (n : Int) : Except EncodeError (Array UInt8) :=
  if n < 0 then .error .negativeInteger
  else if (scheme.capacity : Int) ≤ n then .error .valueTooBig
  else .ok (scheme.spelling n.toNat).toArray

namespace IntegerType

variable {t : IntegerType} {m : Nat}

/-- A number that is not negative is refused by a native type just when it is above the greatest. -/
theorem contains_eq_false_iff :
    t.contains m = false ↔ ∃ native, t.native? = some native ∧ native.upper < m := by
  have hfixed (native : FixedInt) : native.contains m = false ↔ native.upper < m := by
    have hlower : native.lower ≤ 0 := by
      unfold FixedInt.lower
      split <;> omega
    have hlow : native.lower ≤ (m : Int) := Int.le_trans hlower (Int.natCast_nonneg m)
    rw [FixedInt.contains, Bool.and_eq_false_iff, decide_eq_false_iff_not, decide_eq_false_iff_not,
      Int.not_le, Int.not_le]
    exact or_iff_right (Int.not_lt.2 hlow)
  cases hnative : t.native? with
  | none =>
    cases t with
    | fixed t => cases hnative
    | word signed => cases hnative
    | big signed => simp [contains]
  | some native =>
    rw [contains_native hnative, hfixed]
    simp

/-- The digits of a number are refused by the types that do not contain it, few or many as they are. -/
theorem ofDigits_ofNat_of_not_contains (hcontains : t.contains m = false) :
    t.ofDigits (Digits.ofNat m) = .error .decodedValueOverflowsTarget := by
  obtain ⟨native, hnative, _⟩ := contains_eq_false_iff.1 hcontains
  rw [contains_native hnative] at hcontains
  simp only [ofDigits, hnative, Digits.toNative?]
  by_cases hcount : (Digits.ofNat m).length ≤ Digits.maxNative
  · simp only [if_pos hcount, Digits.toNat_ofNat, hcontains, Bool.false_eq_true, if_false]
  · simp only [if_neg hcount]

end IntegerType

namespace Checked

/-- By either way the digits are those of the number. -/
theorem toDigits_eq_ofNat {t : IntegerType} {n : Int} (hcontains : t.contains n = true) :
    toDigits t n =
      if n < 0 then throw (.refused .negativeInteger) else return Digits.ofNat n.toNat := by
  rw [toDigits_eq hcontains, IntegerType.toDigits]
  by_cases hneg : n < 0
  · rw [if_pos hneg, if_pos hneg]
    rfl
  · rw [if_neg hneg, if_neg hneg]
    rfl

end Checked

namespace Definitions

section

variable {ι ω : Type} (defs : Definitions ι ω)

theorem write_compact (t : IntegerType) (n : Int) :
    defs.write (.compact t) (.int n) = Writer.putCompact n := by
  rw [← writeWith_write]
  rfl

theorem encodeFull_compact (scheme : Scheme) (t : IntegerType) (n : Int) :
    defs.encodeFull scheme (.compact t) (.int n) = scheme.coded n := by
  have hverdict : Writer.verdict scheme (Writer.putCompact n) = _ := Writer.verdict_putCompact n
  rw [← defs.write_compact t n] at hverdict
  unfold Scheme.coded
  by_cases hneg : n < 0
  · rw [if_pos hneg] at hverdict ⊢
    exact Writer.encodeFull_of_verdict hverdict
  rw [if_neg hneg] at hverdict ⊢
  by_cases hlarge : (scheme.capacity : Int) ≤ n
  · rw [if_pos hlarge] at hverdict ⊢
    exact Writer.encodeFull_of_verdict hverdict
  · rw [if_neg hlarge, encodeFull_eq_ok_iff, write_compact, Writer.emits_putCompact_iff]
    exact ⟨Int.not_lt.1 hneg, by omega, rfl⟩

end

variable {ι : Type} (defs : Definitions ι Empty)

theorem read_compact (t : IntegerType) : defs.read (.compact t) = (do
    let n ← Reader.takeCompact t
    return .int n) := by
  rw [← readWith_read]
  rfl

/-- A number of any size is what any digits are read as, and other types take it when they contain it. -/
theorem read_compact_of_big (u : IntegerType) (source : Source) :
    match defs.read (.compact (.big false)) source with
    | .ok v after => ∃ m : Nat, v = .int m ∧
      defs.read (.compact u) source =
        (if u.contains m then .ok (.int m) after else .error .decodedValueOverflowsTarget after) ∧
      (u.contains m = false ↔ ∃ native, u.native? = some native ∧ native.upper < m)
    | .error e after => defs.read (.compact u) source = .error e after := by
  rw [read_compact, read_compact]
  cases hdigits : Reader.takeDigits source with
  | error e after =>
    have htake (t : IntegerType) : Reader.takeCompact t source = .error e after :=
      Step.bind_of_error hdigits
    rw [Step.bind_of_error (htake _)]
    exact Step.bind_of_error (htake u)
  | ok digits after =>
    obtain ⟨m, rest, _, rfl, _, rfl⟩ := Reader.bytes_of_takeDigits hdigits
    have htake (t : IntegerType) : Reader.takeCompact t source =
        (MonadExcept.ofExcept (t.ofDigits (Digits.ofNat m)) : Reader Int) (source.withBytes rest) :=
      Step.bind_of_ok hdigits
    have hok {t : IntegerType} (hcontains : t.contains m = true) :
        Reader.takeCompact t source = .ok m (source.withBytes rest) := by
      rw [htake, IntegerType.ofDigits_ofNat hcontains]
      rfl
    have hbig : IntegerType.contains (.big false) m = true := by simp [IntegerType.contains]
    rw [Step.bind_of_ok (hok hbig)]
    refine ⟨m, rfl, ?_, IntegerType.contains_eq_false_iff⟩
    by_cases hcontains : u.contains m = true
    · rw [if_pos hcontains, Step.bind_of_ok (hok hcontains)]
      rfl
    · have herror : Reader.takeCompact u source =
          .error .decodedValueOverflowsTarget (source.withBytes rest) := by
        rw [htake, IntegerType.ofDigits_ofNat_of_not_contains (Bool.eq_false_iff.2 hcontains)]
        rfl
      rw [if_neg hcontains, Step.bind_of_error herror]

/-- Compact integers are coded by their number: types that contain it write it alike or refuse it alike,
    although they come by its digits in different ways, and every type reads what the largest one does,
    unless it is above its greatest value. -/
theorem compact_by_number {t t' : IntegerType} {n : Int} (hcontains : t.contains n = true)
    (hcontains' : t'.contains n = true) :
    Checked.toDigits t n = Checked.toDigits t' n ∧
    Checked.putCompact t n = Checked.putCompact t' n ∧
    Checked.putCompact t n = Checked.lift (defs.write (.compact t) (.int n)) ∧
    (∀ scheme, defs.encodeFull scheme (.compact t) (.int n) = scheme.coded n ∧
      defs.encodeFull scheme (.compact t') (.int n) = scheme.coded n) ∧
    ∀ (u : IntegerType) (source : Source), match defs.read (.compact (.big false)) source with
      | .ok v after => ∃ m : Nat, v = .int m ∧
        defs.read (.compact u) source =
          (if u.contains m then .ok (.int m) after else .error .decodedValueOverflowsTarget after) ∧
        (u.contains m = false ↔ ∃ native, u.native? = some native ∧ native.upper < m)
      | .error e after => defs.read (.compact u) source = .error e after := by
  refine ⟨?_, ?_, ?_, fun scheme => ⟨?_, ?_⟩, defs.read_compact_of_big⟩
  · rw [Checked.toDigits_eq_ofNat hcontains, Checked.toDigits_eq_ofNat hcontains']
  · rw [Checked.putCompact_eq hcontains, Checked.putCompact_eq hcontains']
  · rw [Checked.putCompact_eq hcontains, write_compact]
  · exact defs.encodeFull_compact scheme t n
  · exact defs.encodeFull_compact scheme t' n

/-- A number of thirteen digits, as a 128-bit word and as an integer of any size. -/
theorem compact_by_number_thirteen_digits :
    IntegerType.contains (.fixed .u128) (2 ^ 100) = true ∧
    IntegerType.contains (.big true) (2 ^ 100) = true ∧
    Checked.putCompact (.fixed .u128) (2 ^ 100) = Checked.putCompact (.big true) (2 ^ 100) ∧
    (none : Definitions Empty Empty).encodeFull .classic (.compact (.fixed .u128)) (.int (2 ^ 100)) =
      .ok #[0x27, 0, 0, 0, 0, 0, 0, 0, 0, 0, 0, 0, 0, 0x10] ∧
    (none : Definitions Empty Empty).encodeFull .classic (.compact (.big true)) (.int (2 ^ 100)) =
      .ok #[0x27, 0, 0, 0, 0, 0, 0, 0, 0, 0, 0, 0, 0, 0x10] := by
  have hword : IntegerType.contains (.fixed .u128) (2 ^ 100) = true := by decide
  have hbig : IntegerType.contains (.big true) (2 ^ 100) = true := by decide
  have hcoded : Scheme.coded .classic (2 ^ 100) =
      .ok #[0x27, 0, 0, 0, 0, 0, 0, 0, 0, 0, 0, 0, 0, 0x10] := by
    rw [Scheme.coded, if_neg (by decide), if_neg (by decide +kernel)]
    exact congrArg Except.ok (by decide +kernel)
  obtain ⟨_, hput, _, hencode, _⟩ :=
    compact_by_number (none : Definitions Empty Empty) hword hbig
  obtain ⟨hleft, hright⟩ := hencode .classic
  exact ⟨hword, hbig, hput, hleft.trans hcoded, hright.trans hcoded⟩

end Definitions

end Scale
