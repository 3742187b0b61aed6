import Scale.Derive.Plan
import Scale.Value.Basic

namespace Scale.Derive

/-- A way to write values and to read them again. -/
structure Coding where
  write : Value → Writer Unit
  read : Reader Value

/-- How the type of a field is coded. -/
structure FieldType where
  /-- The coding of the type itself. -/
  plain : Coding
  /-- The coding as a compact integer. -/
  compact : Coding
  /-- Reading over an old value. -/
  overwrite : Value → Reader Value
  /-- The value of a field that is not read. -/
  default : Value

namespace DeclaredField

/-- The coding that the options of a field ask for. -/
def coding (field : DeclaredField FieldType) : Coding :=
  if field.options.compact then field.type.compact else field.type.plain

/-- Writes the field out of the values of all fields. -/
def write (field : DeclaredField FieldType) (values : List Value) : Writer Unit :=
  match values[field.position]? with
  | some v => field.coding.write v
  | none => throw .illTyped

/-- Reads the field. -/
def read (field : DeclaredField FieldType) : Reader Value :=
  field.coding.read

/-- Reads over the field, given the old values of all fields. A compact field is replaced. -/
def overwrite (field : DeclaredField FieldType) (values : List Value) : Reader Value :=
  if field.options.compact then
    field.read
  else
    match values[field.position]? with
    | some old => field.type.overwrite old
    | none => field.read

end DeclaredField

/-- The positions of fields. -/
def positions {τ : Type} (fields : List (DeclaredField τ)) : List Nat :=
  fields.map DeclaredField.position

/-- Writes a value by the plan of an encoder. -/
def EncodePlan.write : EncodePlan FieldType → Value → Writer Unit
  | record steps, .list values => steps.forM fun field => field.write values
  | sum arms, .tagged i (.list values) =>
    match arms[i]? with
    | some arm => do
      Writer.putTag (UInt8.ofNat arm.tag)
      arm.steps.forM fun field => field.write values
    | none => throw .illTyped
  | integers e, .tagged i _ => e.coding.put i
  | _, _ => throw .illTyped

namespace DecodeProduct

/-- The values of a product before any field is read: those of fields that are not read are
    final. -/
def blank (product : DecodeProduct FieldType) : List Value :=
  Value.place (positions product.defaults) (product.defaults.map fun field => field.type.default)
    (List.replicate (product.steps.length + product.defaults.length) .unit)

/-- Reads the fields of a product and builds it. -/
def read (product : DecodeProduct FieldType) : Reader Value := do
  let vs ← product.steps.mapM DeclaredField.read
  return .list (Value.place (positions product.steps) vs product.blank)

end DecodeProduct

namespace DecodePlan

/-- Reads a value by the plan of a decoder. -/
def read : DecodePlan FieldType → Reader Value
  | record product _ => product.read
  | sum count arms => do
    let tag ← Reader.takeTag count
    match arms[tag]? with
    | some (_, product) => return .tagged tag (← product.read)
    | none => throw .wrongTypeIndex
  | integers e => return .tagged (← e.coding.take) .unit

/-- Reads over a value: fields that are not coded stay, if the plan says how. -/
def overwrite (plan : DecodePlan FieldType) (old : Value) : Reader Value :=
  match plan with
  | record _ (some steps) => do
    let vs ← steps.mapM fun field => field.overwrite old.items
    return .list (Value.place (positions steps) vs old.items)
  | _ => plan.read

end DecodePlan

end Scale.Derive
