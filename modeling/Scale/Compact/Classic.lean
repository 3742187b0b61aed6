import Scale.Digits
import Scale.Sink
import Scale.Source

namespace Scale.Classic

/-- Values below this take one byte. -/
def singleLimit : Nat := 2 ^ 6

/-- Values below this take at most two bytes. -/
def doubleLimit : Nat := 2 ^ 14

/-- Values below this take at most four bytes. -/
def quadrupleLimit : Nat := 2 ^ 30

/-- The fewest digits of the long form. -/
def minLong : Nat := 4

/-- The most digits of the long form, as its header has six bits for their number. -/
def maxLong : Nat := minLong + 63

/-- Writes digits in the shortest form; zeros at the top are dropped first. The low two bits of the
    first byte tell the four forms apart: `4 * n` in one byte, `4 * n + 1` in two, `4 * n + 2` in
    four, or `4 * (k - 4) + 3` before `k` digits. -/
def put (digits : Digits) : Writer Unit :=
  let digits := digits.trim
  let n := digits.toNat
  if n < singleLimit then
    Writer.putByte (UInt8.ofNat (4 * n))
  else if n < doubleLimit then
    Writer.putSpan (littleEndian 2 (4 * n + 1))
  else if n < quadrupleLimit then
    Writer.putSpan (littleEndian 4 (4 * n + 2))
  else if maxLong < digits.length then
    throw .valueTooBig
  else do
    Writer.putByte (UInt8.ofNat (4 * (digits.length - minLong) + 3))
    Writer.putSpan digits

/-- Hands out the digits of a number, unless a shorter form could hold it. -/
def accept (limit n : Nat) : Reader Digits :=
  if n < limit then throw .redundantCompactEncoding else return Digits.ofNat n

/-- Reads the digits of a long form of known length. The top digit is not zero, as the length is
    spelled, and four digits are not used for a value that four bytes could have held. -/
def takeLong (length : Nat) : Reader Digits := do
  if !(← Reader.has length) then
    throw .notEnoughData
  let digits : Digits ← Reader.read length
  if digits.getLast? = some 0 then
    throw .redundantCompactEncoding
  if length = minLong ∧ digits.toNat < quadrupleLimit then
    throw .redundantCompactEncoding
  return digits

/-- Reads one number. -/
def take : Reader Digits := do
  let first ← Reader.takeByte
  match first.toNat % 4 with
  | 0 => return Digits.ofNat (first.toNat / 4)
  | 1 =>
    let second ← Reader.takeByte
    accept singleLimit (ofLittleEndian [first, second] / 4)
  | 2 =>
    let rest ← Reader.read 3
    accept doubleLimit (ofLittleEndian (first :: rest) / 4)
  | _ => takeLong (first.toNat / 4 + minLong)

end Scale.Classic
