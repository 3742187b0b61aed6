import Scale.Compact.Basic

namespace Scale

/-- The widths of the fixed-width integers. -/
inductive Width where
  | w8
  | w16
  | w32
  | w64
  | w128
  deriving DecidableEq, Repr, Inhabited

/-- The number of bytes of a width. -/
def Width.bytes : Width → Nat
  | w8 => 1
  | w16 => 2
  | w32 => 4
  | w64 => 8
  | w128 => 16

/-- An integer type of fixed width. -/
structure FixedInt where
  signed : Bool
  width : Width
  deriving DecidableEq, Repr, Inhabited

namespace FixedInt

/-- The unsigned integers of 8 bits. -/
def u8 : FixedInt := ⟨false, .w8⟩

/-- The unsigned integers of 16 bits. -/
def u16 : FixedInt := ⟨false, .w16⟩

/-- The unsigned integers of 32 bits. -/
def u32 : FixedInt := ⟨false, .w32⟩

/-- The unsigned integers of 64 bits. -/
def u64 : FixedInt := ⟨false, .w64⟩

/-- The unsigned integers of 128 bits. -/
def u128 : FixedInt := ⟨false, .w128⟩

/-- The signed integers of 8 bits. -/
def i8 : FixedInt := ⟨true, .w8⟩

/-- The signed integers of 16 bits. -/
def i16 : FixedInt := ⟨true, .w16⟩

/-- The signed integers of 32 bits. -/
def i32 : FixedInt := ⟨true, .w32⟩

/-- The signed integers of 64 bits. -/
def i64 : FixedInt := ⟨true, .w64⟩

/-- The signed integers of 128 bits. -/
def i128 : FixedInt := ⟨true, .w128⟩

/-- The number of bytes that a value takes. -/
def bytes (t : FixedInt) : Nat :=
  t.width.bytes

/-- The number of values of the type. -/
def card (t : FixedInt) : Nat :=
  256 ^ t.bytes

/-- The least value of the type. -/
def lower (t : FixedInt) : Int :=
  if t.signed then -(t.card / 2 : Nat) else 0

/-- The greatest value of the type. -/
def upper (t : FixedInt) : Int :=
  t.lower + t.card - 1

/-- Whether a number is a value of the type. -/
def contains (t : FixedInt) (n : Int) : Bool :=
  t.lower ≤ n && n ≤ t.upper

/-- The value of the type that agrees with a number in all bits that the type has. -/
def wrap (t : FixedInt) (n : Int) : Int :=
  if t.signed then n.bmod t.card else n % t.card

/-- The two's complement bytes of a value. -/
def toBytes (t : FixedInt) (n : Int) : List UInt8 :=
  littleEndian t.bytes (n % t.card).toNat

/-- The value that two's complement bytes spell: the upper half of the bit patterns of a signed
    type stands for the negative numbers. -/
def ofBytes (t : FixedInt) (bytes : List UInt8) : Int :=
  let n := ofLittleEndian bytes
  if t.signed && t.card / 2 ≤ n then (n : Int) - t.card else n

/-- Writes a value in its fixed width. -/
def put (t : FixedInt) (n : Int) : Writer Unit :=
  Writer.putSpan (t.toBytes n)

/-- Reads a value of the type. -/
def take (t : FixedInt) : Reader Int := do
  return t.ofBytes (← Reader.read t.bytes)

end FixedInt

/-- An integer type that can be coded compactly. -/
inductive IntegerType where
  /-- A fixed-width type. -/
  | fixed (t : FixedInt)
  /-- The type of sizes and offsets, 64 bits wide. -/
  | word (signed : Bool)
  /-- The type of all natural numbers or of all integers. -/
  | big (signed : Bool)
  deriving DecidableEq, Repr, Inhabited

namespace IntegerType

/-- The fixed-width type with the same values, if there is one. -/
def native? : IntegerType → Option FixedInt
  | fixed t => some t
  | word signed => some ⟨signed, .w64⟩
  | big _ => none

/-- Whether a number is a value of the type. -/
def contains : IntegerType → Int → Bool
  | fixed t, n => t.contains n
  | word signed, n => FixedInt.contains ⟨signed, .w64⟩ n
  | big signed, n => signed || 0 ≤ n

/-- The trimmed magnitude digits of a number, which must not be negative. -/
def toDigits (n : Int) : Except EncodeError Digits :=
  if n < 0 then .error .negativeInteger else .ok (Digits.ofNat n.toNat)

/-- The value that magnitude digits spell. A native type refuses more than sixteen digits, and
    every number out of its range. -/
def ofDigits (t : IntegerType) (digits : Digits) : Except DecodeError Int :=
  match t.native? with
  | none => .ok digits.toNat
  | some native =>
    match digits.toNative? with
    | none => .error .decodedValueOverflowsTarget
    | some n =>
      if native.contains n then .ok n else .error .decodedValueOverflowsTarget

end IntegerType

/-- Writes an integer compactly. -/
def Writer.putCompact (n : Int) : Writer Unit := do
  Writer.putDigits (← MonadExcept.ofExcept (IntegerType.toDigits n))

/-- Reads a compact integer of the given type. -/
def Reader.takeCompact (t : IntegerType) : Reader Int := do
  MonadExcept.ofExcept (t.ofDigits (← Reader.takeDigits))

end Scale
