namespace Scale.Derive

/-- The two traits that can be derived. -/
inductive Trait where
  | encode
  | decode
  deriving DecidableEq, Repr, Inhabited

/-- The name of a trait. -/
def Trait.name : Trait → String
  | encode => "Encode"
  | decode => "Decode"

/-- Why a declaration is refused. -/
inductive DeriveError where
  /-- The declaration is a union. -/
  | union (asked : Trait)
  /-- There are more alternatives than tags. -/
  | tooManyAlternatives
  /-- An attribute of the derives has no list. -/
  | notAList
  /-- The underlying integer is not given as a text. -/
  | reprNotText
  /-- The text of the underlying integer does not consist of tokens. -/
  | malformedRepr
  /-- The text of the underlying integer is blank. -/
  | blankRepr
  /-- The text of the underlying integer does not begin with an identifier. -/
  | noIdentifier
  /-- Something follows the identifier. -/
  | unexpectedToken
  /-- The underlying type is not a fixed-width integer. -/
  | reprNotInteger
  /-- A listed field is neither a name nor an index. -/
  | notAMember
  /-- A listed index is no 32-bit word. -/
  | indexTooLarge
  /-- An option of a type is not known. -/
  | unknownOption
  /-- An option of a field is not known. -/
  | unknownFieldOption
  /-- A listed field does not exist. -/
  | noSuchField
  /-- A listed field is left out by its own option. -/
  | fieldSkipped
  /-- A field is listed a second time. -/
  | fieldListedTwice
  /-- A record asks for an underlying integer. -/
  | reprOnRecord
  /-- A sum lists fields. -/
  | fieldsOnSum
  /-- An enumeration by integers has parameters. -/
  | reprGeneric
  /-- An enumeration by integers has no alternative. -/
  | reprEmpty
  /-- An enumeration by integers has an alternative with fields. -/
  | reprWithFields
  deriving DecidableEq, Repr, Inhabited

/-- The most alternatives that a tag of one byte can tell apart. -/
def maxAlternatives : Nat := 256

/-- The text shown for a refused declaration. -/
def DeriveError.message : DeriveError → String
  | union asked => "unions can't derive `" ++ asked.name ++ "`"
  | tooManyAlternatives =>
    "at most " ++ toString maxAlternatives ++ " variants can be tagged by one byte"
  | notAList => "expected `#[scale(...)]`"
  | reprNotText => "expected `repr = \"u8\"`"
  | malformedRepr => "lex error"
  | blankRepr => "unexpected end of input, expected identifier"
  | noIdentifier => "expected identifier"
  | unexpectedToken => "unexpected token"
  | reprNotInteger => "`repr` must be a primitive integer type"
  | notAMember => "expected a field name"
  | indexTooLarge => "number too large to fit in target type"
  | unknownOption => "unknown option, expected `repr = \"..\"` or `fields(..)`"
  | unknownFieldOption => "unknown field option, expected `skip` or `compact`"
  | noSuchField => "no such field"
  | fieldSkipped => "field is marked `skip`"
  | fieldListedTwice => "field listed twice"
  | reprOnRecord => "`repr` is only valid on enums"
  | fieldsOnSum => "`fields` is only valid on structs"
  | reprGeneric => "`repr` enums can't be generic"
  | reprEmpty => "`repr` enums need at least one variant"
  | reprWithFields => "`repr` enums can only have unit variants"

end Scale.Derive
