import Scale.Integer

namespace Scale

/-- Counts are 64-bit words. -/
def maxCount : Nat := 2 ^ 64 - 1

/-- The largest size of a block of memory. -/
def maxMemory : Nat := 2 ^ 63 - 1

/-- The most items that a collection of items without size is read with. -/
def maxZeroSized : Nat := 2 ^ 16

/-- The most items of a given size that a collection can hold. -/
def maxItems (itemSize : Nat) : Nat :=
  if itemSize = 0 then maxZeroSized else maxMemory / itemSize

/-- Writes a count. -/
def Writer.putCount (count : Nat) : Writer Unit :=
  Writer.putDigits (Digits.ofNat count)

/-- Writes a count and the items after it. -/
def Writer.putCounted {α : Type} (put : α → Writer Unit) (items : List α) : Writer Unit := do
  Writer.putCount items.length
  items.forM put

/-- Writes a count and raw bytes after it. -/
def Writer.putCountedSpan (span : List UInt8) : Writer Unit := do
  Writer.putCount span.length
  Writer.putSpan span

namespace Reader

/-- Reads a count, a 64-bit word of at most `limit`. -/
def takeCount (limit : Nat) : Reader Nat := do
  let count ← takeCompact (.word false)
  if limit < count then
    throw .tooManyItems
  return count.toNat

/-- Reads the count of items of a given size. It has to be at most `limit`, and no more than
    there can be items in memory or, unless they have no size, than there are bytes left: an item
    that takes room in memory is expected to take a byte of the stream. -/
def takeItemCount (itemSize limit : Nat) : Reader Nat := do
  let count ← takeCount (min limit (maxItems itemSize))
  if itemSize ≠ 0 ∧ (← remaining) < count then
    throw .notEnoughData
  return count

/-- Reads `n` items, putting them in front of those already read, last one first. -/
def readManyOnto {α : Type} (item : Reader α) : Nat → List α → Reader (List α)
  | 0, done => return done.reverse
  | n + 1, done => do readManyOnto item n ((← item) :: done)

/-- Reads `n` items one after the other. -/
def readMany {α : Type} (n : Nat) (item : Reader α) : Reader (List α) :=
  readManyOnto item n []

/-- Reads a count and as many raw bytes. -/
def takeCountedSpan : Reader (List UInt8) := do
  readSpan (← takeCount (maxItems 1))

end Reader

end Scale
