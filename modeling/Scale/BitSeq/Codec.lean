import Scale.BitSeq
import Scale.Counted

namespace Scale.BitSeq

/-- Writes a bit sequence. -/
def put (bits : BitSeq) : Writer Unit := do
  Writer.putCount bits.length
  Writer.putSpan bits.bytes

/-- Reads a bit sequence, refusing set bits past its end. -/
def take : Reader BitSeq := do
  let count ← Reader.takeCount (maxItems 1)
  let size := PackedBits.byteCount count
  if !(← Reader.has size) then
    throw .notEnoughData
  match ofPacked? count (← Reader.read size) with
  | some bits => return bits
  | none => throw .unusedBitsAreSet

end Scale.BitSeq
