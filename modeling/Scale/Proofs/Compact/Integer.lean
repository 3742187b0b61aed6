import Scale.Integer
import Scale.Proofs.Compact.Scheme

namespace Scale

variable {scheme : Scheme} {bytes : List UInt8}

namespace Writer

theorem Uniform.putDigits (digits : Digits) : Uniform (putDigits digits) :=
  Uniform.bind uniform_scheme fun scheme => scheme.uniform_put digits

theorem putCompact_of_neg {n : Int} (hneg : n < 0) : putCompact n = throw .negativeInteger := by
  rw [putCompact, IntegerType.toDigits, if_pos hneg]
  rfl

theorem putCompact_of_nonneg {n : Int} (hnonneg : 0 ≤ n) :
    putCompact n = putDigits (Digits.ofNat n.toNat) := by
  rw [putCompact, IntegerType.toDigits, if_neg (Int.not_lt.2 hnonneg)]
  rfl

theorem Uniform.putCompact (n : Int) : Uniform (putCompact n) := by
  by_cases hneg : n < 0
  · rw [putCompact_of_neg hneg]
    exact Uniform.throw _
  · rw [putCompact_of_nonneg (Int.not_lt.1 hneg)]
    exact Uniform.putDigits _

theorem emits_putDigits_ofNat_iff {n : Nat} :
    Emits scheme (putDigits (Digits.ofNat n)) bytes ↔
      n < scheme.capacity ∧ bytes = scheme.spelling n := by
  rw [emits_putDigits_iff, Scheme.emits_put_iff, Digits.toNat_ofNat]

theorem emits_putCompact_iff {n : Int} :
    Emits scheme (putCompact n) bytes ↔
      0 ≤ n ∧ n.toNat < scheme.capacity ∧ bytes = scheme.spelling n.toNat := by
  by_cases hneg : n < 0
  · rw [putCompact_of_neg hneg]
    constructor
    · intro hemits
      exact absurd hemits not_emits_throw
    · rintro ⟨hnonneg, _⟩
      exact absurd hneg (Int.not_lt.2 hnonneg)
  · have hnonneg := Int.not_lt.1 hneg
    rw [putCompact_of_nonneg hnonneg, emits_putDigits_ofNat_iff]
    exact ⟨fun hnumber => ⟨hnonneg, hnumber⟩, fun hnumber => hnumber.2⟩

end Writer

namespace IntegerType

theorem contains_fixed_bounds {t : FixedInt} {n : Nat} (hcontains : t.contains n = true) :
    n < 256 ^ Digits.maxNative := by
  have hupper : (n : Int) ≤ t.upper := (Bool.and_eq_true_iff.1 hcontains).2 |> of_decide_eq_true
  have hlower : t.lower ≤ 0 := by
    unfold FixedInt.lower
    split <;> omega
  have hcard : t.card ≤ 256 ^ Digits.maxNative := by
    have hbytes : t.bytes ≤ Digits.maxNative := by
      unfold FixedInt.bytes
      cases t.width <;> decide
    exact Nat.pow_le_pow_right (by decide) hbytes
  unfold FixedInt.upper at hupper
  omega

theorem contains_native {t : IntegerType} {native : FixedInt} (hnative : t.native? = some native)
    (n : Int) : t.contains n = native.contains n := by
  cases t with
  | fixed t =>
    cases hnative
    rfl
  | word signed =>
    cases hnative
    rfl
  | big signed => cases hnative

/-- The digits of a number are read by the integer types that contain it. -/
theorem ofDigits_ofNat {t : IntegerType} {n : Nat} (hcontains : t.contains n = true) :
    t.ofDigits (Digits.ofNat n) = .ok (n : Int) := by
  unfold ofDigits
  cases hnative : t.native? with
  | none => simp only [Digits.toNat_ofNat]
  | some native =>
    rw [contains_native hnative] at hcontains
    have hcount : (Digits.ofNat n).length ≤ Digits.maxNative := by
      rw [Digits.length_ofNat, Digits.count_le_iff]
      exact contains_fixed_bounds hcontains
    simp only [Digits.toNative?, if_pos hcount, Digits.toNat_ofNat, hcontains, if_true]

theorem eq_of_ofDigits {t : IntegerType} {digits : Digits} {n : Int}
    (hdigits : t.ofDigits digits = .ok n) : n = digits.toNat ∧ t.contains n = true := by
  unfold ofDigits at hdigits
  cases hnative : t.native? with
  | none =>
    rw [hnative] at hdigits
    obtain rfl := Except.ok.inj hdigits
    cases t with
    | fixed t => cases hnative
    | word signed => cases hnative
    | big signed => simp [contains]
  | some native =>
    rw [contains_native hnative]
    simp only [hnative, Digits.toNative?] at hdigits
    by_cases hcount : digits.length ≤ Digits.maxNative
    · simp only [if_pos hcount] at hdigits
      by_cases hcontains : native.contains digits.toNat = true
      · rw [if_pos hcontains] at hdigits
        obtain rfl := Except.ok.inj hdigits
        exact ⟨rfl, hcontains⟩
      · rw [if_neg hcontains] at hdigits
        cases hdigits
    · simp only [if_neg hcount] at hdigits
      cases hdigits

end IntegerType

namespace Reader

variable {α : Type}

theorem ofExcept_ok (a : α) : (MonadExcept.ofExcept (.ok a : Except DecodeError α) : Reader α) = pure a :=
  rfl

theorem ofExcept_error (e : DecodeError) :
    (MonadExcept.ofExcept (.error e : Except DecodeError α) : Reader α) = throw e :=
  rfl

/-- A compact integer is read off its spelling by every type that contains it. -/
theorem Yields.takeCompact {t : IntegerType} {n : Nat} (hcontains : t.contains n = true)
    (hlt : n < scheme.capacity) : Yields scheme (takeCompact t) (scheme.spelling n) n := by
  rw [← List.append_nil (scheme.spelling n)]
  refine (Yields.takeDigits (Scheme.yields_spelling hlt)).bind ?_
  rw [IntegerType.ofDigits_ofNat hcontains, ofExcept_ok]
  exact Yields.pure _

theorem bytes_of_takeDigits {source after : Source} {digits : Digits}
    (hrun : takeDigits source = .ok digits after) :
    ∃ n rest, n < source.scheme.capacity ∧ digits = Digits.ofNat n ∧
      source.bytes = source.scheme.spelling n ++ rest ∧ after = source.withBytes rest :=
  Scheme.bytes_of_take hrun

/-- Whatever is read as a compact integer is the spelling of that integer. -/
theorem bytes_of_takeCompact {t : IntegerType} {source after : Source} {n : Int}
    (hrun : takeCompact t source = .ok n after) :
    ∃ (m : Nat) (rest : List UInt8), n = m ∧ t.contains n = true ∧ m < source.scheme.capacity ∧
      source.bytes = source.scheme.spelling m ++ rest ∧ after = source.withBytes rest := by
  obtain ⟨digits, middle, htake, hrest⟩ := Step.bind_eq_ok_iff.1 hrun
  obtain ⟨m, rest, hlt, rfl, hbytes, rfl⟩ := bytes_of_takeDigits htake
  cases hdigits : t.ofDigits (Digits.ofNat m) with
  | error e =>
    rw [hdigits, ofExcept_error] at hrest
    cases hrest
  | ok value =>
    rw [hdigits, ofExcept_ok] at hrest
    obtain ⟨rfl, rfl⟩ := Step.pure_eq_ok_iff.1 hrest
    obtain ⟨hvalue, hcontains⟩ := IntegerType.eq_of_ofDigits hdigits
    rw [Digits.toNat_ofNat] at hvalue
    exact ⟨m, rest, hvalue, hcontains, hlt, hbytes, rfl⟩

end Reader

end Scale
