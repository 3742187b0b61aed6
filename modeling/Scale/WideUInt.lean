import Scale.Source
import Scale.Sink
import Scale.LittleEndian

namespace Scale

/-- An unsigned integer of exactly `width` bytes: 32, 64 or 128 of them, beyond the native widths. -/
structure WideUInt (width : Nat) where
  val : Nat
  val_lt : val < 256 ^ width
  deriving DecidableEq

namespace WideUInt

variable {width : Nat}

/-- The width in bits. -/
def bits (_ : WideUInt width) : Nat :=
  8 * width

/-- The number of bits up to the highest one set. -/
def bitsUsed (n : WideUInt width) : Nat :=
  if n.val = 0 then 0 else n.val.log2 + 1

/-- A number as a value of the type, unless it is too wide. -/
def ofNat? (n : Nat) : Option (WideUInt width) :=
  if h : n < 256 ^ width then some ⟨n, h⟩ else none

/-- A number as a value of the type; a number that is too wide is handed back. -/
def ofNat (n : Nat) : Except Nat (WideUInt width) :=
  if h : n < 256 ^ width then .ok ⟨n, h⟩ else .error n

/-- Zero. -/
def zero : WideUInt width :=
  ⟨0, Nat.pow_pos (by decide)⟩

instance : Inhabited (WideUInt width) := ⟨zero⟩

/-- The largest value of the type. -/
def max : WideUInt width :=
  ⟨256 ^ width - 1, by
    have hpos : 0 < 256 ^ width := Nat.pow_pos (by decide)
    omega⟩

/-- A machine word that is no wider than the type. -/
def ofBitVec {w : Nat} (hw : w ≤ 8 * width) (word : BitVec w) : WideUInt width :=
  ⟨word.toNat, by
    have hle : 2 ^ w ≤ 2 ^ (8 * width) := Nat.pow_le_pow_right (by decide) hw
    rw [Nat.pow_mul] at hle
    exact Nat.lt_of_lt_of_le word.isLt hle⟩

instance : Ord (WideUInt width) where
  compare a b := compare a.val b.val

/-- Writes all bytes of the type. -/
def put (n : WideUInt width) : Writer Unit :=
  Writer.putSpan (littleEndian width n.val)

/-- The value that `width` bytes spell; bytes past the width would be ignored. -/
def ofBytes (bytes : List UInt8) : WideUInt width :=
  ⟨ofLittleEndian (bytes.take width), by
    have hlt := ofLittleEndian_lt (bytes.take width)
    have hle : 256 ^ (bytes.take width).length ≤ 256 ^ width :=
      Nat.pow_le_pow_right (by decide) (List.length_take_le width bytes)
    omega⟩

/-- Reads all bytes of the type. -/
def take : Reader (WideUInt width) := do
  return ofBytes (← Reader.read width)

end WideUInt

end Scale
