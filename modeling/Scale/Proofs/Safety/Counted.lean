import Scale.Decode
import Scale.Proofs.Reading.Spans
import Scale.Proofs.Safety.Integers

namespace Scale.Checked

/-- The most items of a given size that a collection can hold. -/
def maxItems (itemSize : Nat) : Except Fault Nat :=
  if itemSize = 0 then return maxZeroSized else Word.div maxMemory itemSize

/-- Writes a count, which has to be a 64-bit word. -/
def putCount (count : Nat) : Writing Unit := do
  putDigits (← check (do digitsOf (← Word.narrow 64 count)))

/-- Reads a count of at most `limit`. -/
def takeCount (limit : Nat) : Reading Nat := do
  let count ← takeCompact (.word false)
  if limit < count then throw (.refused .tooManyItems) else return count.toNat

/-- Reads the count of items of a given size. -/
def takeItemCount (itemSize limit : Nat) : Reading Nat := do
  let most ← check (maxItems itemSize)
  let count ← takeCount (min limit most)
  if itemSize ≠ 0 ∧ (← lift Reader.remaining) < count then
    throw (.refused .notEnoughData)
  else
    return count

/-- Writes a count and the items after it. -/
def putCounted {α : Type} (put : α → Writing Unit) (items : List α) : Writing Unit := do
  putCount items.length
  items.forM put

/-- Reads items one after the other. -/
def readMany {α : Type} (item : Reading α) : Nat → Reading (List α)
  | 0 => return []
  | n + 1 => do
    let a ← item
    let items ← readMany item n
    return a :: items

/-- Writes a count and raw bytes after it. -/
def putCountedSpan (span : List UInt8) : Writing Unit := do
  putCount span.length
  lift (Writer.putSpan span)

/-- Reads a count and as many raw bytes. -/
def takeCountedSpan : Reading (List UInt8) := do
  let most ← check (maxItems 1)
  readSpan (← takeCount most)

def takeText : Reading String := do
  match textOfBytes? (← takeCountedSpan) with
  | some s => return s
  | none => throw (.refused .unexpectedValue)

/-- The number of bytes that hold a number of bits. -/
def byteCount (bits : Nat) : Except Fault Nat :=
  Word.add 64 (bits / 8) (if bits % 8 ≠ 0 then 1 else 0)

/-- Whether the last one of the bytes has no bit set past the first `count` bits. -/
def paddingClear (count : Nat) (bytes : List UInt8) : Except Fault Bool :=
  if count % 8 ≠ 0 then do
    let last ← Buffer.get bytes (← Word.sub bytes.length 1)
    return (← Word.shiftRight 8 last.toNat (count % 8)) == 0
  else
    return true

def putBits (bits : BitSeq) : Writing Unit := do
  putCount bits.length
  lift (Writer.putSpan bits.bytes)

def takeBits : Reading BitSeq := do
  let most ← check (maxItems 1)
  let count ← takeCount most
  let size ← check (byteCount count)
  lift (Reader.need size)
  let bytes ← readInto (List.replicate size 0)
  if ← check (paddingClear count bytes) then
    match BitSeq.ofPacked? count bytes with
    | some bits => return bits
    | none => throw (.fault .unreachable)
  else
    throw (.refused .unusedBitsAreSet)

def takeBool : Reading Bool := do
  match (← takeByte).toNat with
  | 0 => return false
  | 1 => return true
  | _ => throw (.refused .unexpectedValue)

/-- Reads an optional truth value out of one byte. -/
def takePacked : Reading Value := do
  match (← takeByte).toNat with
  | 0 => return .absent
  | 1 => return .present (.bool true)
  | 2 => return .present (.bool false)
  | _ => throw (.refused .unexpectedValue)

/-- Writes the tag of an alternative, which has to fit into a byte. -/
def putTag (index : Nat) : Writing Unit := do
  let tag ← check (Word.narrow 8 index)
  lift (Writer.putTag (UInt8.ofNat tag))

/-- Reads a tag. There may be no more alternatives than a byte can tell apart. -/
def takeTag (alternatives : Nat) : Reading Nat := do
  check (assert (alternatives ≤ 256))
  let tag ← takeByte
  if tag.toNat < alternatives then return tag.toNat else throw (.refused .wrongTypeIndex)

theorem maxItems_eq (itemSize : Nat) : maxItems itemSize = .ok (Scale.maxItems itemSize) := by
  unfold maxItems Scale.maxItems
  split
  · rfl
  · next hsize => exact Word.div_of_ne hsize

theorem putCount_eq {count : Nat} (hcount : count ≤ maxCount) :
    putCount count = lift (Writer.putCount count) := by
  have hword : count < 2 ^ 64 := Nat.lt_of_le_of_lt hcount (by decide)
  rw [putCount, Word.narrow_of_lt hword, ok_bind, digitsOf_eq (by omega), check_ok, pure_bind,
    putDigits_eq, Writer.putCount]

theorem takeCount_eq (limit : Nat) : takeCount limit = lift (Reader.takeCount limit) := by
  rw [takeCount, takeCompact_eq]
  refine lift_bind_congr fun {_ count _} _ => ?_
  by_cases hlimit : (limit : Int) < count
  · rw [if_pos hlimit, if_pos hlimit]
    rfl
  · rw [if_neg hlimit, if_neg hlimit]
    rfl

theorem takeItemCount_eq (itemSize limit : Nat) :
    takeItemCount itemSize limit = lift (Reader.takeItemCount itemSize limit) := by
  rw [takeItemCount, maxItems_eq, check_ok, pure_bind, takeCount_eq]
  refine lift_bind_congr fun {_ count _} _ => lift_bind_congr fun {_ remaining _} _ => ?_
  by_cases hfew : itemSize ≠ 0 ∧ remaining < count
  · rw [if_pos hfew, if_pos hfew]
    rfl
  · rw [if_neg hfew, if_neg hfew]
    rfl

theorem forM_lift {α : Type} {put' : α → Writing Unit} {put : α → Writer Unit} {items : List α}
    (hput : ∀ a ∈ items, put' a = lift (put a)) : items.forM put' = lift (items.forM put) := by
  induction items with
  | nil => rfl
  | cons a items ih =>
    have hrest := ih fun b hb => hput b (by simp [hb])
    simp only [List.forM_eq_forM, List.forM_cons] at hrest ⊢
    rw [hput a (by simp), hrest, lift_bind]

theorem mapM_lift {α β : Type} {step' : α → Reading β} {step : α → Reader β} {items : List α}
    (hstep : ∀ a ∈ items, step' a = lift (step a)) : items.mapM step' = lift (items.mapM step) := by
  induction items with
  | nil => rfl
  | cons a items ih =>
    rw [List.mapM_cons, List.mapM_cons, hstep a (by simp), ih fun b hb => hstep b (by simp [hb]),
      lift_bind]
    exact congrArg (lift (step a) >>= ·) (funext fun b => lift_map _ _)

theorem putCounted_eq {α : Type} {put' : α → Writing Unit} {put : α → Writer Unit} {items : List α}
    (hcount : items.length ≤ maxCount) (hput : ∀ a ∈ items, put' a = lift (put a)) :
    putCounted put' items = lift (Writer.putCounted put items) := by
  rw [putCounted, putCount_eq hcount, lift_seq (forM_lift hput), Writer.putCounted]

theorem readMany_eq {α : Type} (item : Reader α) (n : Nat) :
    readMany (lift item) n = lift (Reader.readMany n item) := by
  induction n with
  | zero => rfl
  | succ n ih =>
    rw [readMany, ih, Reader.readMany_succ, lift_bind]
    exact congrArg (lift item >>= ·) (funext fun a => lift_map _ _)

theorem putCountedSpan_eq {span : List UInt8} (hcount : span.length ≤ maxCount) :
    putCountedSpan span = lift (Writer.putCountedSpan span) := by
  rw [putCountedSpan, putCount_eq hcount, lift_seq rfl, Writer.putCountedSpan]

theorem takeCountedSpan_eq : takeCountedSpan = lift Reader.takeCountedSpan := by
  rw [takeCountedSpan, maxItems_eq, check_ok, pure_bind, takeCount_eq]
  exact lift_bind_congr fun {_ count _} _ => readSpan_eq count

theorem takeText_eq : takeText = lift Reader.takeText := by
  rw [takeText, takeCountedSpan_eq]
  refine lift_bind_congr fun {_ span _} _ => ?_
  cases textOfBytes? span <;> rfl

theorem byteCount_eq {bits : Nat} (hbits : bits ≤ maxCount) :
    byteCount bits = .ok (PackedBits.byteCount bits) := by
  have hmax : maxCount = 2 ^ 64 - 1 := rfl
  have hcount : bits / 8 + (if bits % 8 ≠ 0 then 1 else 0) = PackedBits.byteCount bits := by
    unfold PackedBits.byteCount
    split <;> omega
  have hword : PackedBits.byteCount bits < 2 ^ 64 := by
    unfold PackedBits.byteCount
    omega
  rw [byteCount, Word.add_of_lt (by rwa [hcount]), hcount]

theorem shiftRight_eq_zero_iff {byte : UInt8} {amount : Nat} (hamount : amount < 8) :
    byte >>> UInt8.ofNat amount = 0 ↔ byte.toNat / 2 ^ amount = 0 := by
  have hsmall : amount % 2 ^ 8 % 8 = amount := by omega
  rw [← UInt8.toNat_inj, UInt8.toNat_shiftRight, UInt8.toNat_ofNat', hsmall, Nat.shiftRight_eq_div_pow,
    UInt8.toNat_zero]

theorem paddingClear_eq {count : Nat} {bytes : List UInt8}
    (hlength : bytes.length = PackedBits.byteCount count) :
    paddingClear count bytes = .ok (PackedBits.paddingClear count bytes) := by
  unfold paddingClear PackedBits.paddingClear
  by_cases hused : count % 8 = 0
  · rw [if_neg (Decidable.not_not.2 hused), hused]
    rfl
  · have hsize : PackedBits.byteCount count = count / 8 + 1 := by
      unfold PackedBits.byteCount
      omega
    have hlast : count / 8 < bytes.length := by omega
    have hindex : Word.sub bytes.length 1 = .ok (count / 8) := by
      rw [Word.sub_of_le (by omega), hlength, hsize, Nat.add_sub_cancel]
    have hbits : count % 8 < 8 := Nat.mod_lt _ (by decide)
    have hget : bytes.getD (count / 8) 0 = bytes[count / 8] := by
      rw [List.getD_eq_getElem?_getD, List.getElem?_eq_getElem hlast, Option.getD_some]
    rw [if_pos hused, hindex, ok_bind, Buffer.get_of_getElem? (List.getElem?_eq_getElem hlast), ok_bind,
      Word.shiftRight_of_lt hbits, ok_bind, hget, beq_false_of_ne hused,
      Bool.false_or]
    refine congrArg Except.ok (Bool.eq_iff_iff.2 ?_)
    rw [beq_iff_eq, beq_iff_eq, shiftRight_eq_zero_iff hbits]

theorem putBits_eq {bits : BitSeq} (hcount : bits.length ≤ maxCount) :
    putBits bits = lift bits.put := by
  rw [putBits, putCount_eq hcount, lift_seq rfl, BitSeq.put]

theorem takeBits_eq : takeBits = lift BitSeq.take := by
  rw [takeBits, maxItems_eq, check_ok, pure_bind, takeCount_eq, BitSeq.take_eq]
  refine lift_bind_congr fun {_ count _} htake => ?_
  obtain ⟨_, hlimit, _⟩ := Reader.bytes_of_takeCount htake
  rw [byteCount_eq (Nat.le_trans hlimit (Reader.maxItems_le_maxCount 1)), check_ok, pure_bind,
    readInto_eq, List.length_replicate]
  refine lift_bind_congr fun _ => lift_bind_congr fun {_ bytes _} hread => ?_
  have hlength := Reader.length_of_read hread
  rw [paddingClear_eq hlength, check_ok, pure_bind, BitSeq.ofPacked?, dif_pos hlength]
  split <;> rfl

theorem takeBool_eq : takeBool = lift Reader.takeBool := by
  rw [takeBool, takeByte_eq]
  refine lift_bind_congr fun {_ byte _} _ => ?_
  rcases byte.toNat with _ | _ | _ <;> rfl

theorem takePacked_eq : takePacked = lift Reader.takePacked := by
  rw [takePacked, takeByte_eq]
  refine lift_bind_congr fun {_ byte _} _ => ?_
  rcases byte.toNat with _ | _ | _ | _ <;> rfl

theorem putTag_eq {index : Nat} (hlt : index < 256) :
    putTag index = lift (Writer.putTag (UInt8.ofNat index)) := by
  rw [putTag, Word.narrow_of_lt hlt, check_ok, pure_bind]

/-- A tag with what is written after it. -/
theorem putTag_seq {index : Nat} {rest : Writer Unit} {rest' : Writing Unit} (hlt : index < 256)
    (hrest : rest' = lift rest) : (do putTag index; rest') = lift (do
      Writer.putTag (UInt8.ofNat index)
      rest) := by
  rw [putTag_eq hlt, lift_seq hrest]

theorem takeTag_eq {alternatives : Nat} (hle : alternatives ≤ 256) :
    takeTag alternatives = lift (Reader.takeTag alternatives) := by
  rw [takeTag, assert_of hle, check_ok, pure_bind, takeByte_eq]
  refine lift_bind_congr fun {_ tag _} _ => ?_
  rw [lift_ite]
  rfl

end Scale.Checked
