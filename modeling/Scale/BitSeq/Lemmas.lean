import Scale.BitSeq

namespace Scale

namespace PackedBits

/-- Two bytes with the same bits are equal. -/
theorem byte_ext {a b : UInt8}
    (hbits : ∀ k, k < 8 → a.toBitVec.getLsbD k = b.toBitVec.getLsbD k) : a = b :=
  UInt8.toBitVec_inj.1 (BitVec.eq_of_getLsbD_eq hbits)

/-- Two byte lists of the same length with the same bits are equal. -/
theorem bytes_ext {xs ys : List UInt8} (hlength : xs.length = ys.length)
    (hbits : ∀ i, bit xs i = bit ys i) : xs = ys := by
  refine List.ext_getElem hlength fun n hx hy => byte_ext fun k hk => ?_
  have hbyte : (8 * n + k) / 8 = n := by omega
  have hplace : (8 * n + k) % 8 = k := by omega
  have hbit := hbits (8 * n + k)
  unfold bit at hbit
  rw [hbyte, hplace] at hbit
  simpa [List.getD_eq_getElem?_getD, hx, hy] using hbit

/-- The bits of bytes that are all the same. -/
theorem bit_replicate (count : Nat) (value : Bool) (i : Nat) :
    bit (List.replicate count (if value then 0xff else 0)) i = (decide (i / 8 < count) && value) := by
  have hplace : i % 8 < 8 := Nat.mod_lt _ (by decide)
  unfold bit
  rw [List.getD_eq_getElem?_getD, List.getElem?_replicate]
  by_cases hi : i / 8 < count
  · cases value
    · simp [hi]
    · have hones : ∀ k, k < 8 → (255 : UInt8).toBitVec.getLsbD k = true := by decide
      simpa [hi] using hones (i % 8) hplace
  · simp [hi]

end PackedBits

open PackedBits

namespace BitSeq

@[simp] theorem length_toList (bits : BitSeq) : bits.toList.length = bits.length := by
  simp [toList]

theorem getElem?_toList (bits : BitSeq) (i : Nat) : bits.toList[i]? = bits.get? i := by
  by_cases hi : i < bits.length <;> simp [toList, get?, hi]

/-- A sequence is determined by its bits. -/
theorem toList_inj {a b : BitSeq} : a.toList = b.toList ↔ a = b := by
  constructor
  · intro hbits
    have hlength : a.length = b.length := by
      simpa using congrArg List.length hbits
    have hbytes : a.bytes = b.bytes := by
      apply bytes_ext
      · rw [a.length_bytes, b.length_bytes, hlength]
      · intro i
        by_cases hi : i < a.length
        · have hget : a.get? i = b.get? i := by
            rw [← getElem?_toList, ← getElem?_toList, hbits]
          simpa [get?, hi, hlength ▸ hi] using hget
        · rw [a.bit_padding i (by omega), b.bit_padding i (by omega)]
    cases a
    cases b
    simp_all
  · intro h
    rw [h]

@[simp] theorem toList_empty : empty.toList = [] :=
  rfl

@[simp] theorem toList_replicate (count : Nat) (value : Bool) :
    (replicate count value).toList = List.replicate count value := by
  apply List.ext_getElem?
  intro i
  rw [getElem?_toList, get?, replicate, List.getElem?_replicate]
  by_cases hi : i < count
  · have hbyte : i / 8 < byteCount count := by
      unfold byteCount
      omega
    simp [hi, hbyte, bit_clearPadding, bit_replicate]
  · simp [hi]

/-- Setting a bit changes that place of the list. -/
theorem toList_set (bits : BitSeq) (i : Nat) (hi : i < bits.length) (value : Bool) :
    (bits.set i hi value).toList = bits.toList.set i value := by
  apply List.ext_getElem?
  intro j
  rw [getElem?_toList, List.getElem?_set, length_toList, getElem?_toList]
  unfold get? BitSeq.set
  rw [bit_set (bits.lt_length_bytes hi)]
  by_cases hij : i = j
  · subst hij
    simp [hi]
  · simp [hij]

@[simp] theorem toList_push (bits : BitSeq) (value : Bool) :
    (bits.push value).toList = bits.toList ++ [value] := by
  apply List.ext_getElem?
  intro i
  have hroom : bits.length / 8 < bits.grown.length := by
    have hcount : byteCount (bits.length + 1) = (bits.length + 1 + 7) / 8 := rfl
    rw [length_grown]
    omega
  rw [getElem?_toList, List.getElem?_append, length_toList, getElem?_toList]
  unfold get? push
  rw [bit_set hroom, bit_grown]
  by_cases hi : i < bits.length
  · have hne : bits.length ≠ i := by omega
    have hlt : i < bits.length + 1 := by omega
    simp [hi, hne, hlt]
  · by_cases hend : bits.length = i
    · subst hend
      simp
    · have hlt : ¬ i < bits.length + 1 := by omega
      have hpast : [value][i - bits.length]? = none := List.getElem?_eq_none (by simp; omega)
      simp [hi, hlt, hpast]

@[simp] theorem toList_append (bits : BitSeq) (values : List Bool) :
    (bits.append values).toList = bits.toList ++ values := by
  unfold append
  induction values generalizing bits with
  | nil => simp
  | cons value values ih => simp [ih]

@[simp] theorem toList_ofList (values : List Bool) : (ofList values).toList = values := by
  simp [ofList]

/-- Dropping the last bit drops the last one of the list. -/
@[simp] theorem toList_dropLast (bits : BitSeq) : bits.dropLast.toList = bits.toList.dropLast := by
  apply List.ext_getElem?
  intro i
  rw [getElem?_toList, List.getElem?_dropLast, length_toList, getElem?_toList]
  unfold dropLast
  split
  · rename_i hlast
    unfold get?
    by_cases hi : i < bits.length - 1
    · have hbyte : i / 8 < byteCount (bits.length - 1) := by
        unfold byteCount
        omega
      have hne : bits.length - 1 ≠ i := by omega
      have hlt : i < bits.length := by omega
      simp only [hi, hlt, if_true, bit_take, hbyte, BitSeq.set,
        bit_set (bits.lt_length_bytes hlast), hne, if_false]
    · simp [hi]
  · rename_i hnone
    have hi : ¬ i < bits.length := by omega
    simp [get?, hi]

/-- Popping hands out the last bit of the list. -/
theorem pop?_eq (bits : BitSeq) :
    bits.pop? = bits.toList.getLast?.map fun last => (last, bits.dropLast) := by
  rw [pop?, List.getLast?_eq_getElem?, length_toList, getElem?_toList]
  cases bits.get? (bits.length - 1) <;> rfl

end BitSeq

end Scale
