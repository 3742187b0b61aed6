import Scale.BitSeq.Codec
import Scale.Counted
import Scale.Proofs.Compact.Integer

namespace Scale

variable {scheme : Scheme} {bytes xs : List UInt8}

namespace Writer

theorem Uniform.putCount (count : Nat) : Uniform (putCount count) :=
  Uniform.putDigits _

theorem emits_putCount_iff {count : Nat} :
    Emits scheme (putCount count) bytes ↔
      count < scheme.capacity ∧ bytes = scheme.spelling count :=
  emits_putDigits_ofNat_iff

end Writer

namespace Reader

variable {α : Type}

theorem word_contains_iff {n : Nat} : (IntegerType.word false).contains n = true ↔ n ≤ maxCount := by
  have hupper : FixedInt.upper ⟨false, .w64⟩ = maxCount := by decide
  have hlower : FixedInt.lower ⟨false, .w64⟩ = 0 := by decide
  simp only [IntegerType.contains, FixedInt.contains, hupper, hlower, Bool.and_eq_true,
    decide_eq_true_eq]
  omega

theorem Yields.takeCount {limit n : Nat} (hlimit : n ≤ limit) (hword : n ≤ maxCount)
    (hlt : n < scheme.capacity) : Yields scheme (takeCount limit) (scheme.spelling n) n := by
  rw [← List.append_nil (scheme.spelling n)]
  refine (Yields.takeCompact (word_contains_iff.2 hword) hlt).bind ?_
  have hnot : ¬ (limit : Int) < n := by omega
  simp only [hnot, if_false, Int.toNat_natCast]
  exact Yields.pure n

theorem bytes_of_takeCount {limit n : Nat} {source after : Source}
    (hrun : takeCount limit source = .ok n after) :
    ∃ rest : List UInt8, n ≤ limit ∧ n < source.scheme.capacity ∧
      source.bytes = source.scheme.spelling n ++ rest ∧ after = source.withBytes rest := by
  obtain ⟨count, middle, htake, hrest⟩ := Step.bind_eq_ok_iff.1 hrun
  obtain ⟨m, rest, rfl, _, hlt, hbytes, rfl⟩ := bytes_of_takeCompact htake
  by_cases hlimit : (limit : Int) < m
  · rw [if_pos hlimit] at hrest
    cases hrest
  · rw [if_neg hlimit] at hrest
    obtain ⟨rfl, rfl⟩ := Step.pure_eq_ok_iff.1 hrest
    rw [Int.toNat_natCast]
    exact ⟨rest, by omega, hlt, hbytes, rfl⟩

theorem maxItems_le_maxCount (itemSize : Nat) : maxItems itemSize ≤ maxCount := by
  unfold maxItems
  split
  · decide
  · exact Nat.le_trans (Nat.div_le_self _ _) (by decide)

/-- A count is checked against the bytes left once it has been found small enough. -/
theorem takeItemCount_eq (itemSize limit : Nat) :
    takeItemCount itemSize limit = do
      let count ← takeCount (min limit (maxItems itemSize))
      if itemSize ≠ 0 then need count
      return count := by
  unfold takeItemCount
  congr 1
  funext count source
  have hremaining : remaining source = .ok source.remaining source := rfl
  rw [Step.bind_of_ok hremaining]
  by_cases hsize : itemSize = 0
  · simp only [hsize, ne_eq, not_true, false_and, if_false]
  · by_cases hroom : source.remaining < count
    · have hneed : need count source = .error .notEnoughData source :=
        need_of_lt (source.remaining_eq ▸ hroom)
      rw [if_pos ⟨hsize, hroom⟩, if_pos hsize, Step.bind_of_error hneed]
      rfl
    · have hneed : need count source = .ok () source :=
        need_of_le (source.remaining_eq ▸ Nat.not_lt.1 hroom)
      rw [if_neg fun hfew => hroom hfew.2, if_pos hsize, Step.bind_of_ok hneed]

/-- A run of items is read when its count is small enough and there is a byte for each item. -/
theorem Yields.takeItemCount_bind {itemSize limit n : Nat} {items : Nat → Reader α} {a : α}
    (hlimit : n ≤ limit) (hmemory : n ≤ maxItems itemSize) (hlt : n < scheme.capacity)
    (hroom : itemSize ≠ 0 → n ≤ xs.length) (hitems : Yields scheme (items n) xs a) :
    Yields scheme (takeItemCount itemSize limit >>= items) (scheme.spelling n ++ xs) a := by
  rw [takeItemCount_eq, bind_assoc]
  refine (Yields.takeCount (Nat.le_min.2 ⟨hlimit, hmemory⟩)
    (Nat.le_trans hmemory (maxItems_le_maxCount itemSize)) hlt).bind ?_
  by_cases hsize : itemSize = 0
  · simpa only [hsize, ne_eq, not_true, if_false, pure_bind] using hitems
  · rw [if_pos hsize, bind_assoc]
    exact Yields.need_bind (hroom hsize) (by rwa [pure_bind])

theorem bytes_of_takeItemCount {itemSize limit n : Nat} {source after : Source}
    (hrun : takeItemCount itemSize limit source = .ok n after) :
    ∃ rest : List UInt8, n ≤ limit ∧ n < source.scheme.capacity ∧
      source.bytes = source.scheme.spelling n ++ rest ∧ after = source.withBytes rest := by
  rw [takeItemCount_eq] at hrun
  obtain ⟨count, middle, htake, hrest⟩ := Step.bind_eq_ok_iff.1 hrun
  obtain ⟨rest, hlimit, hlt, hbytes, rfl⟩ := bytes_of_takeCount htake
  have hend : n = count ∧ after = source.withBytes rest := by
    by_cases hsize : itemSize = 0
    · simp only [hsize, ne_eq, not_true, if_false] at hrest
      obtain ⟨rfl, rfl⟩ := Step.pure_eq_ok_iff.1 hrest
      exact ⟨rfl, rfl⟩
    · rw [if_pos hsize] at hrest
      obtain ⟨_, hneed, rfl⟩ := Step.map_eq_ok_iff.1 hrest
      exact ⟨rfl, eq_of_need hneed⟩
  obtain ⟨rfl, rfl⟩ := hend
  exact ⟨rest, Nat.le_trans hlimit (Nat.min_le_left _ _), hlt, hbytes, rfl⟩

/-- A count that is accepted is no more than memory can hold, nor, unless the items have no size, than
    there are bytes left. -/
theorem room_of_takeItemCount {itemSize limit n : Nat} {source after : Source}
    (hrun : takeItemCount itemSize limit source = .ok n after) :
    n ≤ maxItems itemSize ∧ (itemSize ≠ 0 → n ≤ after.bytes.length) := by
  rw [takeItemCount_eq] at hrun
  obtain ⟨count, middle, htake, hrest⟩ := Step.bind_eq_ok_iff.1 hrun
  obtain ⟨rest, hlimit, _⟩ := bytes_of_takeCount htake
  have hmemory := Nat.le_trans hlimit (Nat.min_le_right _ _)
  by_cases hsize : itemSize = 0
  · simp only [hsize, ne_eq, not_true, if_false] at hrest
    obtain ⟨rfl, _⟩ := Step.pure_eq_ok_iff.1 hrest
    exact ⟨hmemory, fun hsized => absurd hsize hsized⟩
  · rw [if_pos hsize] at hrest
    obtain ⟨_, hneed, rfl⟩ := Step.map_eq_ok_iff.1 hrest
    refine ⟨hmemory, fun _ => Nat.not_lt.1 fun hlt => ?_⟩
    rw [eq_of_need hneed] at hlt
    rw [need_of_lt hlt] at hneed
    cases hneed

/-- Reads a count and as many items of a given size. -/
def takeCounted (itemSize limit : Nat) (item : Reader α) : Reader (List α) := do
  let count ← takeItemCount itemSize limit
  readMany count item

theorem readManyOnto_eq (item : Reader α) (n : Nat) (done : List α) :
    readManyOnto item n done = do
      let items ← readMany n item
      return done.reverse ++ items := by
  unfold readMany
  induction n generalizing done with
  | zero => simp [readManyOnto]
  | succ n ih =>
    simp only [readManyOnto, bind_assoc]
    congr 1
    funext a
    rw [ih (a :: done), ih [a]]
    simp

/-- Items are read one after the other. -/
theorem readMany_succ (item : Reader α) (n : Nat) :
    readMany (n + 1) item = do
      let a ← item
      let items ← readMany n item
      return a :: items := by
  rw [readMany, readManyOnto]
  congr 1
  funext a
  rw [readManyOnto_eq]
  rfl

end Reader

/-- Clear bits past the end are what reading a bit sequence looks for. -/
theorem PackedBits.paddingClear_of_bit {count : Nat} {bytes : List UInt8}
    (hclear : ∀ i, count ≤ i → bit bytes i = false) : paddingClear count bytes = true := by
  unfold paddingClear
  by_cases hused : count % 8 = 0
  · simp [hused]
  · have hshift : bytes.getD (count / 8) 0 >>> UInt8.ofNat (count % 8) = 0 := by
      apply UInt8.toNat_inj.1
      have hsmall : count % 8 % 2 ^ 8 % 8 = count % 8 := by omega
      rw [UInt8.toNat_shiftRight, UInt8.toNat_ofNat', hsmall]
      refine Nat.eq_of_testBit_eq fun j => ?_
      rw [Nat.testBit_shiftRight, UInt8.toNat_zero, Nat.zero_testBit]
      by_cases hj : count % 8 + j < 8
      · have hbit := hclear (count / 8 * 8 + (count % 8 + j)) (by omega)
        have hbyte : (count / 8 * 8 + (count % 8 + j)) / 8 = count / 8 := by omega
        have hplace : (count / 8 * 8 + (count % 8 + j)) % 8 = count % 8 + j := by omega
        rw [bit, hbyte, hplace] at hbit
        exact hbit
      · have hlt := (bytes.getD (count / 8) 0).toNat_lt
        exact Nat.testBit_lt_two_pow
          (Nat.lt_of_lt_of_le hlt (Nat.pow_le_pow_right (by decide) (Nat.not_lt.1 hj)))
    rw [hshift]
    simp

theorem BitSeq.ofPacked?_self (bits : BitSeq) : ofPacked? bits.length bits.bytes = some bits := by
  unfold ofPacked?
  rw [dif_pos bits.length_bytes, dif_pos (PackedBits.paddingClear_of_bit bits.bit_padding)]

theorem BitSeq.take_eq :
    BitSeq.take = (do
      let count ← Reader.takeCount (maxItems 1)
      Reader.need (PackedBits.byteCount count)
      match BitSeq.ofPacked? count (← Reader.read (PackedBits.byteCount count)) with
      | some bits => return bits
      | none => throw .unusedBitsAreSet) := by
  unfold BitSeq.take Reader.need
  simp only [bind_assoc]
  congr 1
  funext count
  congr 1
  funext enough
  cases enough <;> rfl

end Scale
