import Scale.Derive.CodedFields
import Scale.Enumeration

namespace Scale.Derive

variable {τ : Type}

/-- One alternative in the plan of an encoder. -/
structure EncodeArm (τ : Type) where
  /-- The tag that is written. -/
  tag : Nat
  /-- The alternative that is matched. -/
  alternative : String
  /-- The fields that are written, in order. -/
  steps : List (DeclaredField τ)
  deriving Repr, Inhabited

/-- The plan of an encoder. -/
inductive EncodePlan (τ : Type) where
  /-- Fields are written in order. -/
  | record (steps : List (DeclaredField τ))
  /-- The tag of the alternative is written, and then its fields. -/
  | sum (arms : List (EncodeArm τ))
  /-- The integer of the alternative is written. -/
  | integers (e : Enumeration)
  deriving Repr, Inhabited

/-- A product in the plan of a decoder. -/
structure DecodeProduct (τ : Type) where
  /-- The record or the alternative that is built. -/
  builds : String
  /-- The fields that are read, in order. -/
  steps : List (DeclaredField τ)
  /-- The fields that take their default, as declared. -/
  defaults : List (DeclaredField τ)
  deriving Repr, Inhabited

/-- The plan of a decoder. -/
inductive DecodePlan (τ : Type) where
  /-- Fields are read in order. If some are not coded, there is also a way to overwrite just the
      coded ones of an existing record. -/
  | record (product : DecodeProduct τ) (inPlace : Option (List (DeclaredField τ)))
  /-- A tag below the number of alternatives is read, and then the fields of its alternative. -/
  | sum (count : Nat) (arms : List (Nat × DecodeProduct τ))
  /-- An integer is read, which has to be that of an alternative. -/
  | integers (e : Enumeration)
  deriving Repr, Inhabited

/-- A declaration has no more alternatives than there are tags. -/
def checkCount (alternatives : List (Alternative τ)) : Except DeriveError Unit :=
  if maxAlternatives < alternatives.length then .error .tooManyAlternatives else .ok ()

/-- The coded fields of an alternative; it has no list of its own. -/
def encodeArm (tag : Nat) (alternative : Alternative τ) : Except DeriveError (EncodeArm τ) := do
  let coded ← codedFields (← declaredFields alternative.fields) none
  return ⟨tag, alternative.name, coded⟩

/-- The arms of the alternatives from a tag on. -/
def encodeArms (tag : Nat) : List (Alternative τ) → Except DeriveError (List (EncodeArm τ))
  | [] => .ok []
  | alternative :: rest => do
    let arm ← encodeArm tag alternative
    return arm :: (← encodeArms (tag + 1) rest)

/-- The alternatives with their integers. -/
def enumeration (repr : FixedInt) (alternatives : List (Alternative τ)) : Enumeration :=
  .ofDeclared repr (alternatives.map fun alternative =>
    (alternative.name, alternative.discriminant?))

/-- Whether an alternative has no parentheses and no braces. -/
def Alternative.isPlain (alternative : Alternative τ) : Bool :=
  match alternative.fields with
  | .unit => true
  | _ => false

/-- The plan of an enumeration by integers, which has alternatives without fields, at least one,
    and no parameters. -/
def encodeIntegers (params : List Param) (alternatives : List (Alternative τ))
    (repr : FixedInt) : Except DeriveError (EncodePlan τ) := do
  if !params.isEmpty then
    throw .reprGeneric
  if alternatives.isEmpty then
    throw .reprEmpty
  if !alternatives.all Alternative.isPlain then
    throw .reprWithFields
  return .integers (enumeration repr alternatives)

/-- The plan of an encoder. -/
def encodePlan (item : Item τ) : Except DeriveError (EncodePlan τ) :=
  match item.body with
  | .union _ => .error (.union .encode)
  | .record fields => do
    let options ← typeOptions item.attributes
    if options.repr.isSome then
      throw .reprOnRecord
    return .record (← codedFields (← declaredFields fields) options.fields)
  | .sum alternatives => do
    checkCount alternatives
    let options ← typeOptions item.attributes
    if !(options.fields.getD []).isEmpty then
      throw .fieldsOnSum
    match options.repr with
    | some repr => encodeIntegers item.params alternatives repr
    | none => return .sum (← encodeArms 0 alternatives)

/-- The product that is built from its coded fields. -/
def decodeProduct (builds : String) (all coded : List (DeclaredField τ)) : DecodeProduct τ where
  builds := builds
  steps := coded
  defaults := all.filter fun field => !coded.any fun other => other.member == field.member

/-- The arms of the alternatives from a tag on. -/
def decodeArms (tag : Nat) :
    List (Alternative τ) → Except DeriveError (List (Nat × DecodeProduct τ))
  | [] => .ok []
  | alternative :: rest => do
    let all ← declaredFields alternative.fields
    let coded ← codedFields all none
    return (tag, decodeProduct alternative.name all coded) :: (← decodeArms (tag + 1) rest)

/-- The plan of a decoder. That a sum lists no fields and that an enumeration by integers is fit to be
    one is left to the encoder to make sure of. -/
def decodePlan (item : Item τ) : Except DeriveError (DecodePlan τ) :=
  match item.body with
  | .union _ => .error (.union .decode)
  | .record fields => do
    let options ← typeOptions item.attributes
    if options.repr.isSome then
      throw .reprOnRecord
    let all ← declaredFields fields
    let coded ← codedFields all options.fields
    let inPlace := if coded.length = all.length then none else some coded
    return .record (decodeProduct item.name all coded) inPlace
  | .sum alternatives => do
    checkCount alternatives
    let options ← typeOptions item.attributes
    match options.repr with
    | some repr => return .integers (enumeration repr alternatives)
    | none => return .sum alternatives.length (← decodeArms 0 alternatives)

/-- The parameters of a declaration, each with whether the derived trait is asked of it. It is
    asked of the types. -/
def boundedParams (item : Item τ) : List (Param × Bool) :=
  item.params.map fun param => (param, param.isType)

end Scale.Derive
