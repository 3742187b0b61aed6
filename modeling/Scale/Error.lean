namespace Scale

/-- Why a value could not be written. -/
inductive EncodeError where
  /-- A compact integer was below zero. -/
  | negativeInteger
  /-- A weak pointer had lost its value. -/
  | danglingPointer
  /-- A compact integer was beyond what the compact scheme can hold. -/
  | valueTooBig
  /-- The value did not have the shape that its schema asks for. -/
  | illTyped
  deriving DecidableEq, Repr, Inhabited

/-- The text shown for an encoding failure. -/
def EncodeError.message : EncodeError → String
  | .negativeInteger => "SCALE encode: integer can not be negative"
  | .danglingPointer => "SCALE encode: attempt to dereference a nullptr"
  | .valueTooBig => "SCALE encode: value is too big for compact representation"
  | .illTyped => "SCALE encode: value does not have the shape of its type"

/-- Why a byte stream could not be read. -/
inductive DecodeError where
  /-- The stream ended too early. -/
  | notEnoughData
  /-- A byte was outside the allowed set, or a text was not UTF-8. -/
  | unexpectedValue
  /-- A count was beyond what the collection can hold. -/
  | tooManyItems
  /-- A tag was not below the number of alternatives. -/
  | wrongTypeIndex
  /-- An integer was not one of those that the enumeration declares. -/
  | invalidEnumValue
  /-- A bit past the end of a bit sequence was set. -/
  | unusedBitsAreSet
  /-- A compact integer was not in its shortest form. -/
  | redundantCompactEncoding
  /-- A compact integer was out of range for the integer type asked for. -/
  | decodedValueOverflowsTarget
  deriving DecidableEq, Repr, Inhabited

/-- The text shown for a decoding failure. -/
def DecodeError.message : DecodeError → String
  | .notEnoughData => "SCALE decode: not enough data to decode"
  | .unexpectedValue => "SCALE decode: unexpected value occurred"
  | .tooManyItems => "SCALE decode: collection has too many items or memory is out"
  | .wrongTypeIndex => "SCALE decode: wrong type index, cannot decode variant"
  | .invalidEnumValue => "SCALE decode: decoded enum value does not belong to the enum"
  | .unusedBitsAreSet => "SCALE decode: more bits were set than expected in bit vector"
  | .redundantCompactEncoding => "SCALE decode: redundant bytes in compact encoding"
  | .decodedValueOverflowsTarget => "SCALE decode: decoded value overflows target type"

/-- Either side of the codec failing, for operations that read and write again. -/
inductive CodecError where
  | encode (cause : EncodeError)
  | decode (cause : DecodeError)
  deriving DecidableEq, Repr, Inhabited

/-- A combined failure shows the text of its cause. -/
def CodecError.message : CodecError → String
  | .encode cause => cause.message
  | .decode cause => cause.message

instance : Coe EncodeError CodecError := ⟨.encode⟩

instance : Coe DecodeError CodecError := ⟨.decode⟩

end Scale
