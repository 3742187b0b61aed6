import Scale.Encode
import Scale.Decode

namespace Scale

namespace Buffer

/-- Cuts a buffer off at a length, or fills it up with zeros to that length. -/
def resize (length : Nat) (buffer : List UInt8) : List UInt8 :=
  buffer.take length ++ List.replicate (length - buffer.length) 0

/-- Writes a span over the bytes from `start` on. -/
def overwrite (start : Nat) (span buffer : List UInt8) : List UInt8 :=
  buffer.take start ++ span ++ buffer.drop (start + span.length)

/-- Copies `count` bytes from one place over those at another. The two ranges may overlap, as all
    bytes are read before any is written. -/
def copyWithin (source count target : Nat) (buffer : List UInt8) : List UInt8 :=
  overwrite target ((buffer.drop source).take count) buffer

/-- Makes the room for a longer header: what follows the old one is moved up within a grown
    buffer. -/
def widen (oldLength newLength : Nat) (buffer : List UInt8) : List UInt8 :=
  let payload := buffer.length - oldLength
  copyWithin oldLength payload newLength (resize (newLength + payload) buffer)

/-- Makes the room for a shorter header: what follows the old one is moved down and the end is cut
    off. -/
def narrow (oldLength newLength : Nat) (buffer : List UInt8) : List UInt8 :=
  let payload := buffer.length - oldLength
  (copyWithin oldLength payload newLength buffer).take (newLength + payload)

variable {header payload : List UInt8} {newLength : Nat}

theorem resize_of_le {length : Nat} {buffer : List UInt8} (hle : buffer.length ≤ length) :
    resize length buffer = buffer ++ List.replicate (length - buffer.length) 0 := by
  rw [resize, List.take_of_length_le hle]

theorem widen_append (hgrow : header.length ≤ newLength) :
    widen header.length newLength (header ++ payload) =
      (header ++ payload ++ List.replicate (newLength - header.length) 0).take newLength ++
        payload := by
  let grown := header ++ (payload ++ List.replicate (newLength - header.length) 0)
  have hresize : resize (newLength + payload.length) (header ++ payload) = grown := by
    have hzeros : newLength + payload.length - (header ++ payload).length =
        newLength - header.length := by
      rw [List.length_append]
      omega
    rw [resize_of_le (by rw [List.length_append]; omega), hzeros, List.append_assoc]
  have hlength : grown.length = newLength + payload.length := by
    simp only [grown, List.length_append, List.length_replicate]
    omega
  have hspan : (grown.drop header.length).take payload.length = payload := by
    rw [List.drop_left, List.take_left]
  rw [widen, List.length_append, Nat.add_sub_cancel_left, hresize, copyWithin, hspan, overwrite,
    ← hlength, List.drop_length, List.append_nil, List.append_assoc]

theorem narrow_append (hshrink : newLength ≤ header.length) :
    narrow header.length newLength (header ++ payload) = header.take newLength ++ payload := by
  have hspan : ((header ++ payload).drop header.length).take payload.length = payload := by
    rw [List.drop_left, List.take_length]
  have hfront : (header ++ payload).take newLength = header.take newLength :=
    List.take_append_of_le_length hshrink
  have hroom : (header.take newLength).length = newLength :=
    List.length_take_of_le hshrink
  rw [narrow, List.length_append, Nat.add_sub_cancel_left, copyWithin, hspan, overwrite, hfront]
  refine List.take_left' ?_
  rw [List.length_append, hroom]

/-- A span that is as long as what stands at the front takes its place. -/
theorem overwrite_zero_append {span room rest : List UInt8} (hlength : span.length = room.length) :
    overwrite 0 span (room ++ rest) = span ++ rest := by
  rw [overwrite, List.take_zero, List.nil_append, Nat.zero_add, List.drop_left' hlength.symm]

end Buffer

/-- A step that changes a buffer of encoded items. -/
abbrev Appender := EStateM CodecError (List UInt8)

namespace Appender

/-- Counts of appended items are 64-bit words. -/
def countType : IntegerType := .fixed .u64

/-- The bytes of a count. -/
def encodeCount (scheme : Scheme) (count : Nat) : Except EncodeError (List UInt8) := do
  let bytes ← (Definitions.none : Definitions Empty Empty).encodeFull scheme (.compact countType)
    (.int count)
  return bytes.toList

/-- The number of bytes of a count. -/
def countSize (scheme : Scheme) (count : Nat) : Except EncodeError Nat :=
  (Definitions.none : Definitions Empty Empty).encodedSize scheme (.compact countType) (.int count)

/-- The count at the front of a buffer and the number of bytes that it takes there. -/
def readCount (scheme : Scheme) (buffer : List UInt8) : Except DecodeError (Nat × Nat) :=
  match Reader.takeCompact countType (.decoder scheme (.slice buffer)) with
  | .ok count rest => .ok (count.toNat, buffer.length - rest.bytes.length)
  | .error e _ => .error e

/-- Turns a failure of one side of the codec into one of the whole. -/
def lift {ε α : Type} [Coe ε CodecError] : Except ε α → Appender α
  | .ok a => return a
  | .error e => throw (e : CodecError)

/-- Makes the room for a header of `newLength` bytes where there is one of `oldLength` bytes, moving
    what follows it. How it is moved down to a shorter header is left to `shrink`. -/
def makeRoom (shrink : Nat → Nat → Appender Unit) (oldLength newLength : Nat) : Appender Unit :=
  if oldLength < newLength then
    modify (Buffer.widen oldLength newLength)
  else if newLength < oldLength then
    shrink oldLength newLength
  else
    return

/-- Appends `count` encoded items, concatenated in `items`. An empty buffer becomes a collection of
    just these. The new count has to be a 64-bit word. -/
def appendItemsWith (shrink : Nat → Nat → Appender Unit) (scheme : Scheme) (items : List UInt8)
    (count : UInt64) : Appender Unit := do
  let buffer ← get
  if buffer.isEmpty then
    let header ← lift (encodeCount scheme count.toNat)
    set (header ++ items)
  else
    let (oldCount, oldLength) ← lift (readCount scheme buffer)
    let newCount := oldCount + count.toNat
    if maxCount < newCount then
      throw (.encode .valueTooBig)
    let newLength ← lift (countSize scheme newCount)
    makeRoom shrink oldLength newLength
    -- The buffer has changed by now, so a failure here would leave it in pieces.
    let header ← lift (encodeCount scheme newCount)
    modify (Buffer.overwrite 0 header)
    modify (· ++ items)

/-- Appends `count` encoded items, moving what follows the header down to a shorter one. -/
def appendItems (scheme : Scheme) (items : List UInt8) (count : UInt64) : Appender Unit :=
  appendItemsWith (fun oldLength newLength => modify (Buffer.narrow oldLength newLength)) scheme items
    count

/-- Appends one encoded item. -/
def appendItem (scheme : Scheme) (item : List UInt8) : Appender Unit :=
  appendItems scheme item 1

end Appender

end Scale
