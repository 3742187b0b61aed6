import Scale.Power

namespace Scale

namespace PackedBits

/-- The number of bytes that hold `count` bits. -/
def byteCount (count : Nat) : Nat :=
  (count + 7) / 8

/-- Bit `i` of a byte list; there is nothing but clear bits past its end. -/
def bit (bytes : List UInt8) (i : Nat) : Bool :=
  (bytes.getD (i / 8) 0).toBitVec.getLsbD (i % 8)

/-- A byte with its bit `k` set or cleared. -/
def setBit (k : Nat) (value : Bool) (byte : UInt8) : UInt8 :=
  if value then
    ⟨byte.toBitVec ||| BitVec.twoPow 8 k⟩
  else
    ⟨byte.toBitVec &&& ~~~BitVec.twoPow 8 k⟩

/-- A byte list with its bit `i` set or cleared. -/
def set (bytes : List UInt8) (i : Nat) (value : Bool) : List UInt8 :=
  bytes.modify (i / 8) (setBit (i % 8) value)

/-- A byte with all bits from `used` on cleared. -/
def keepLow (used : Nat) (byte : UInt8) : UInt8 :=
  ⟨byte.toBitVec &&& BitVec.ofNat 8 (2 ^ used - 1)⟩

/-- Clears the bits past the first `count` in a byte list that holds no more bytes than those
    bits need. -/
def clearPadding (count : Nat) (bytes : List UInt8) : List UInt8 :=
  if count % 8 = 0 then bytes else bytes.modify (count / 8) (keepLow (count % 8))

/-- Whether the last byte has no bit set past the first `count` bits. -/
def paddingClear (count : Nat) (bytes : List UInt8) : Bool :=
  count % 8 == 0 || bytes.getD (count / 8) 0 >>> UInt8.ofNat (count % 8) == 0

theorem length_set (bytes : List UInt8) (i : Nat) (value : Bool) :
    (set bytes i value).length = bytes.length := by
  simp [set]

theorem length_clearPadding (count : Nat) (bytes : List UInt8) :
    (clearPadding count bytes).length = bytes.length := by
  unfold clearPadding
  split <;> simp

theorem bit_of_length_le {bytes : List UInt8} {i : Nat} (hi : bytes.length ≤ i / 8) :
    bit bytes i = false := by
  simp [bit, List.getD_eq_getElem?_getD, List.getElem?_eq_none hi]

theorem getLsbD_setBit {k : Nat} (hk : k < 8) (value : Bool) (byte : UInt8) (j : Nat) :
    (setBit k value byte).toBitVec.getLsbD j
      = if k = j then value else byte.toBitVec.getLsbD j := by
  have hlt : byte.toBitVec.getLsbD j = true → j < 8 := BitVec.lt_of_getLsbD
  by_cases hj : k = j
  · subst hj
    cases value <;> simp [setBit, hk]
  · cases value <;> simp [setBit, hk, hj]
    exact hlt

theorem getLsbD_keepLow (used : Nat) (byte : UInt8) (j : Nat) :
    (keepLow used byte).toBitVec.getLsbD j = (byte.toBitVec.getLsbD j && decide (j < used)) := by
  have hlt : byte.toBitVec.getLsbD j = true → j < 8 := BitVec.lt_of_getLsbD
  rw [keepLow, BitVec.getLsbD_and, BitVec.getLsbD_ofNat, Nat.testBit_two_pow_sub_one]
  cases hbyte : byte.toBitVec.getLsbD j
  · simp
  · simp [hlt hbyte]

theorem bit_set {bytes : List UInt8} {i : Nat} (hi : i / 8 < bytes.length) (value : Bool)
    (j : Nat) : bit (set bytes i value) j = if i = j then value else bit bytes j := by
  have hk : i % 8 < 8 := Nat.mod_lt _ (by decide)
  unfold bit set
  rw [List.getD_eq_getElem?_getD, List.getElem?_modify, List.getD_eq_getElem?_getD]
  by_cases hbyte : i / 8 = j / 8
  · have hj : j / 8 < bytes.length := hbyte ▸ hi
    simp only [hbyte, if_true, List.getElem?_eq_getElem hj, Option.map_eq_map, Option.map_some,
      Option.getD_some, getLsbD_setBit hk]
    by_cases hbit : i % 8 = j % 8
    · have hij : i = j := by omega
      simp [hij]
    · have hij : i ≠ j := by omega
      simp [hbit, hij]
  · have hij : i ≠ j := fun h => hbyte (h ▸ rfl)
    simp [hbyte, hij]

theorem bit_append_zero (bytes : List UInt8) (i : Nat) : bit (bytes ++ [0]) i = bit bytes i := by
  unfold bit
  rw [List.getD_eq_getElem?_getD, List.getD_eq_getElem?_getD, List.getElem?_append]
  split
  · rfl
  · rename_i hle
    rw [List.getElem?_eq_none (by omega : bytes.length ≤ i / 8)]
    cases hzero : i / 8 - bytes.length <;> simp

theorem bit_take (bytes : List UInt8) (n i : Nat) :
    bit (bytes.take n) i = if i / 8 < n then bit bytes i else false := by
  unfold bit
  rw [List.getD_eq_getElem?_getD, List.getElem?_take]
  split <;> simp [List.getD_eq_getElem?_getD]

theorem bit_clearPadding {count : Nat} {bytes : List UInt8}
    (hlength : bytes.length = byteCount count) (i : Nat) :
    bit (clearPadding count bytes) i = if i < count then bit bytes i else false := by
  have hcount : byteCount count = (count + 7) / 8 := rfl
  unfold clearPadding
  split
  · split
    · rfl
    · exact bit_of_length_le (by omega)
  · rename_i hused
    unfold bit
    rw [List.getD_eq_getElem?_getD, List.getElem?_modify, List.getD_eq_getElem?_getD]
    by_cases hbyte : count / 8 = i / 8
    · have hi : i / 8 < bytes.length := by omega
      simp only [hbyte, if_true, List.getElem?_eq_getElem hi, Option.map_eq_map, Option.map_some,
        Option.getD_some, getLsbD_keepLow]
      by_cases hbit : i % 8 < count % 8
      · have hlt : i < count := by omega
        simp [hlt, hbit]
      · have hlt : ¬ i < count := by omega
        simp [hlt, hbit]
    · by_cases hlt : i < count
      · simp [hbyte, hlt]
      · have hi : bytes.length ≤ i / 8 := by omega
        simp [hlt, List.getElem?_eq_none hi]

theorem bit_eq_false_of_paddingClear {count : Nat} {bytes : List UInt8}
    (hlength : bytes.length = byteCount count) (hclear : paddingClear count bytes = true)
    {i : Nat} (hi : count ≤ i) : bit bytes i = false := by
  have hcount : byteCount count = (count + 7) / 8 := rfl
  by_cases hin : i / 8 < bytes.length
  · have hused : count % 8 ≠ 0 := by omega
    have hbyte : count / 8 = i / 8 := by omega
    have hshift : bytes.getD (i / 8) 0 >>> UInt8.ofNat (count % 8) = 0 := by
      simpa [paddingClear, hused, hbyte] using hclear
    have hnat : (bytes.getD (i / 8) 0).toNat >>> (count % 8) = 0 := by
      have h := congrArg UInt8.toNat hshift
      rw [UInt8.toNat_shiftRight, UInt8.toNat_ofNat'] at h
      have hsmall : count % 8 % 2 ^ 8 % 8 = count % 8 := by omega
      simpa [hsmall] using h
    have hbit := congrArg (fun n => n.testBit (i % 8 - count % 8)) hnat
    simp only [Nat.testBit_shiftRight, Nat.zero_testBit] at hbit
    have hsum : count % 8 + (i % 8 - count % 8) = i % 8 := by omega
    rw [hsum] at hbit
    exact hbit
  · exact bit_of_length_le (by omega)

end PackedBits

open PackedBits

/-- An index at which a bit sequence has no bit. -/
structure BitIndexError where
  index : Nat
  length : Nat
  deriving DecidableEq, Repr, Inhabited

/-- The text shown for an index without a bit. -/
def BitIndexError.message (e : BitIndexError) : String :=
  "bit index " ++ toString e.index ++ " out of bounds for " ++ toString e.length

/-- A packed sequence of bits. -/
structure BitSeq where
  /-- The number of bits. -/
  length : Nat
  /-- The packed bytes. -/
  bytes : List UInt8
  /-- There are as many bytes as the bits need. -/
  length_bytes : bytes.length = byteCount length
  /-- Every bit past the end is clear. -/
  bit_padding : ∀ i, length ≤ i → bit bytes i = false
  deriving DecidableEq

namespace BitSeq

/-- The sequence without bits. -/
def empty : BitSeq where
  length := 0
  bytes := []
  length_bytes := rfl
  bit_padding _ _ := bit_of_length_le (Nat.zero_le _)

instance : Inhabited BitSeq := ⟨empty⟩

/-- `count` copies of one bit. -/
def replicate (count : Nat) (value : Bool) : BitSeq where
  length := count
  bytes := clearPadding count (List.replicate (byteCount count) (if value then 0xff else 0))
  length_bytes := by rw [length_clearPadding, List.length_replicate]
  bit_padding i hi := by
    rw [bit_clearPadding List.length_replicate, if_neg (by omega)]

/-- The sequence of `count` bits packed in the given bytes, unless their number is wrong or a bit
    past the end is set. -/
def ofPacked? (count : Nat) (bytes : List UInt8) : Option BitSeq :=
  if hlength : bytes.length = byteCount count then
    if hclear : paddingClear count bytes = true then
      some ⟨count, bytes, hlength, fun _ hi => bit_eq_false_of_paddingClear hlength hclear hi⟩
    else
      none
  else
    none

/-- Whether there are no bits. -/
def isEmpty (bits : BitSeq) : Bool :=
  bits.length == 0

/-- The bit at an index, if there is one. -/
def get? (bits : BitSeq) (i : Nat) : Option Bool :=
  if i < bits.length then some (bit bits.bytes i) else none

/-- The bits in order. -/
def toList (bits : BitSeq) : List Bool :=
  (List.range bits.length).map (bit bits.bytes)

theorem lt_length_bytes (bits : BitSeq) {i : Nat} (hi : i < bits.length) :
    i / 8 < bits.bytes.length := by
  have hcount : byteCount bits.length = (bits.length + 7) / 8 := rfl
  have hlength := bits.length_bytes
  omega

/-- Overwrites the bit at an index that exists. -/
def set (bits : BitSeq) (i : Nat) (hi : i < bits.length) (value : Bool) : BitSeq where
  length := bits.length
  bytes := PackedBits.set bits.bytes i value
  length_bytes := by rw [length_set, bits.length_bytes]
  bit_padding j hj := by
    rw [bit_set (bits.lt_length_bytes hi), if_neg (by omega), bits.bit_padding j hj]

/-- Overwrites the bit at an index, if there is one. -/
def set? (bits : BitSeq) (i : Nat) (value : Bool) : Except BitIndexError BitSeq :=
  if hi : i < bits.length then .ok (bits.set i hi value) else .error ⟨i, bits.length⟩

/-- The bytes with room for one more bit: a new byte is opened when the last one is full. -/
def grown (bits : BitSeq) : List UInt8 :=
  if bits.length % 8 = 0 then bits.bytes ++ [0] else bits.bytes

theorem length_grown (bits : BitSeq) : bits.grown.length = byteCount (bits.length + 1) := by
  have hlength := bits.length_bytes
  unfold byteCount at *
  unfold grown
  split
  · rw [List.length_append, List.length_singleton]
    omega
  · omega

theorem bit_grown (bits : BitSeq) (i : Nat) : bit bits.grown i = bit bits.bytes i := by
  unfold grown
  split
  · exact bit_append_zero _ _
  · rfl

/-- Appends a bit. -/
def push (bits : BitSeq) (value : Bool) : BitSeq where
  length := bits.length + 1
  bytes := PackedBits.set bits.grown bits.length value
  length_bytes := by rw [length_set, length_grown]
  bit_padding i hi := by
    have hroom : bits.length / 8 < bits.grown.length := by
      have hcount : byteCount (bits.length + 1) = (bits.length + 1 + 7) / 8 := rfl
      rw [length_grown]
      omega
    rw [bit_set hroom, if_neg (by omega), bit_grown, bits.bit_padding i (by omega)]

/-- The sequence without its last bit, which is cleared before the bytes shrink. -/
def dropLast (bits : BitSeq) : BitSeq :=
  if hlast : bits.length - 1 < bits.length then
    { length := bits.length - 1
      bytes := (bits.set (bits.length - 1) hlast false).bytes.take (byteCount (bits.length - 1))
      length_bytes := by
        have hlength := (bits.set (bits.length - 1) hlast false).length_bytes
        have hsame : (bits.set (bits.length - 1) hlast false).length = bits.length := rfl
        rw [List.length_take, hlength, hsame]
        unfold byteCount
        omega
      bit_padding := by
        intro i hi
        rw [bit_take]
        split
        · rw [BitSeq.set, bit_set (bits.lt_length_bytes hlast)]
          split
          · rfl
          · exact bits.bit_padding i (by omega)
        · rfl }
  else
    bits

/-- The last bit and the sequence without it. -/
def pop? (bits : BitSeq) : Option (Bool × BitSeq) :=
  match bits.get? (bits.length - 1) with
  | some last => some (last, bits.dropLast)
  | none => none

/-- Appends bits one after the other. -/
def append (bits : BitSeq) (values : List Bool) : BitSeq :=
  values.foldl push bits

/-- The sequence of the given bits. -/
def ofList (values : List Bool) : BitSeq :=
  empty.append values

end BitSeq

end Scale
