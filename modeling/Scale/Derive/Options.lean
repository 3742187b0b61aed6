import Scale.Derive.Error
import Scale.Derive.Item
import Scale.Derive.Token
import Scale.Integer

namespace Scale.Derive

/-- The options of a field. -/
structure FieldOptions where
  /-- The field is not part of the encoding. -/
  skip : Bool
  /-- The field is coded compactly. -/
  compact : Bool
  deriving DecidableEq, Repr, Inhabited

/-- The options of a type. -/
structure TypeOptions where
  /-- The integer type that an enumeration is coded as. -/
  repr : Option FixedInt
  /-- The fields that are coded, in that order. -/
  fields : Option (List Member)
  deriving DecidableEq, Repr, Inhabited

/-- The names of the fixed-width integers. -/
def integerNames : List (String × FixedInt) :=
  [("u8", .u8), ("u16", .u16), ("u32", .u32), ("u64", .u64), ("u128", .u128),
    ("i8", .i8), ("i16", .i16), ("i32", .i32), ("i64", .i64), ("i128", .i128)]

/-- The name of a fixed-width integer. -/
def integerName (t : FixedInt) : String :=
  match integerNames.find? fun entry => entry.2 == t with
  | some entry => entry.1
  | none => ""

/-- What is listed in all attributes of the derives. They are gathered before the first option is
    judged, so an attribute without a list is found ahead of an unknown option before it. -/
def listedMetas : List Meta → Except DeriveError (List Meta)
  | [] => .ok []
  | entry :: rest =>
    if entry.path? = some ["scale"] then
      match entry with
      | .list _ items => do return items ++ (← listedMetas rest)
      | _ => .error .notAList
    else
      listedMetas rest

/-- Takes one option of a field into account. -/
def FieldOptions.add (options : FieldOptions) : Meta → Except DeriveError FieldOptions
  | .path ["skip"] => .ok { options with skip := true }
  | .path ["compact"] => .ok { options with compact := true }
  | _ => .error .unknownFieldOption

/-- The options that the attributes of a field give. -/
def fieldOptions (attributes : List Meta) : Except DeriveError FieldOptions := do
  (← listedMetas attributes).foldlM FieldOptions.add ⟨false, false⟩

/-- Words that name nothing. -/
def reservedWords : List String :=
  ["_", "abstract", "as", "become", "box", "break", "const", "continue", "crate", "do", "else",
    "enum", "extern", "false", "final", "fn", "for", "if", "impl", "in", "let", "loop", "macro",
    "match", "mod", "move", "mut", "override", "priv", "pub", "ref", "return", "Self", "self",
    "static", "struct", "super", "trait", "true", "type", "typeof", "unsafe", "unsized", "use",
    "virtual", "where", "while", "yield"]

/-- The name that a text consists of, blanks and comments apart. -/
def nameOf (text : String) : Except DeriveError String :=
  match Token.ofText? text with
  | none => .error .malformedRepr
  | some [] => .error .blankRepr
  | some (.identifier name :: rest) =>
    if reservedWords.contains name then .error .noIdentifier
    else if rest.isEmpty then .ok name
    else .error .unexpectedToken
  | some (_ :: _) => .error .noIdentifier

/-- The integer type that a literal names. -/
def reprOf : Literal → Except DeriveError FixedInt
  | .text s => do
    match integerNames.lookup (← nameOf s) with
    | some t => return t
    | none => throw .reprNotInteger
  | _ => .error .reprNotText

/-- The field that an entry of a list stands for. -/
def memberOf : Meta → Except DeriveError Member
  | .path [name] => .ok (.name name)
  | .literal (.integer n) => if n < 2 ^ 32 then .ok (.index n) else .error .indexTooLarge
  | _ => .error .notAMember

/-- Takes one option of a type into account. -/
def TypeOptions.add (options : TypeOptions) : Meta → Except DeriveError TypeOptions
  | .assign ["repr"] value => do return { options with repr := some (← reprOf value) }
  | .list ["fields"] items => do return { options with fields := some (← items.mapM memberOf) }
  | _ => .error .unknownOption

/-- The options that the attributes of a type give. -/
def typeOptions (attributes : List Meta) : Except DeriveError TypeOptions := do
  (← listedMetas attributes).foldlM TypeOptions.add ⟨none, none⟩

end Scale.Derive
