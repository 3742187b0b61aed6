import Scale.Digits
import Scale.Sink
import Scale.Source

namespace Scale.Jam

/-- The most bytes that follow the first one. -/
def maxExtra : Nat := 8

/-- The number of one bits at the top of a byte, above its highest zero. -/
def leadingOnes (byte : UInt8) : Nat :=
  ((List.range 8).takeWhile fun i => byte.toNat.testBit (7 - i)).length

/-- The number of bytes that follow the first one in the shortest form of `n`. -/
def extraBytes (n : Nat) : Nat :=
  ((List.range maxExtra).find? fun extra => n < 2 ^ (7 * (extra + 1))).getD maxExtra

/-- Writes digits in the shortest form; zeros at the top are dropped first. There are as many ones at
    the top of the first byte as bytes that follow it. Below the first zero are the high bits of the
    number, and the bytes that follow are the low ones. -/
def put (digits : Digits) : Writer Unit :=
  let n := digits.trim.toNat
  if 2 ^ 64 ≤ n then
    throw .valueTooBig
  else do
    let extra := extraBytes n
    let marker := 256 - 2 ^ (8 - extra)
    Writer.putByte (UInt8.ofNat (marker + n / 2 ^ (8 * extra)))
    Writer.putSpan (littleEndian extra n)

/-- Reads one number. -/
def take : Reader Digits := do
  let first ← Reader.takeByte
  let extra := leadingOnes first
  let low ← Reader.read extra
  let high := first.toNat % 2 ^ (7 - extra)
  let n := ofLittleEndian low + 2 ^ (8 * extra) * high
  if 0 < extra ∧ n < 2 ^ (7 * extra) then
    throw .redundantCompactEncoding
  return Digits.ofNat n

end Scale.Jam
