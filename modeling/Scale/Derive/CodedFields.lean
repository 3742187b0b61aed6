import Scale.Derive.Options

namespace Scale.Derive

variable {τ : Type}

/-- A field with its place in the declaration and its options. -/
structure DeclaredField (τ : Type) where
  position : Nat
  member : Member
  type : τ
  options : FieldOptions
  deriving DecidableEq, Repr, Inhabited

/-- The declared fields from a position on. -/
def declaredFrom (position : Nat) : List (Field τ) → Except DeriveError (List (DeclaredField τ))
  | [] => .ok []
  | field :: rest => do
    let options ← fieldOptions field.attributes
    let member := (field.name?.map Member.name).getD (.index position)
    return ⟨position, member, field.type, options⟩ :: (← declaredFrom (position + 1) rest)

/-- The fields of a product in declaration order. -/
def declaredFields (fields : Fields τ) : Except DeriveError (List (DeclaredField τ)) :=
  declaredFrom 0 fields.toList

/-- The declared field of a given name or index. -/
def findMember? (all : List (DeclaredField τ)) (member : Member) : Option (DeclaredField τ) :=
  all.find? fun field => field.member == member

/-- The listed fields, after those that are listed already, or the first entry at fault: its place in
    the list and what is wrong with it. Of an entry it is asked first whether the field exists, then
    whether it is skipped, and last whether it is listed already. -/
def listedFields (all : List (DeclaredField τ)) :
    List (DeclaredField τ) → List Member → Except (Nat × DeriveError) (List (DeclaredField τ))
  | done, [] => .ok done
  | done, member :: rest =>
    match findMember? all member with
    | none => .error (done.length, .noSuchField)
    | some field =>
      if field.options.skip then
        .error (done.length, .fieldSkipped)
      else if done.any fun other => other.member == member then
        .error (done.length, .fieldListedTwice)
      else
        listedFields all (done ++ [field]) rest

/-- The coded fields in coding order. The place of an entry at fault is left out. -/
def codedFields (all : List (DeclaredField τ)) :
    Option (List Member) → Except DeriveError (List (DeclaredField τ))
  | none => .ok (all.filter fun field => !field.options.skip)
  | some order => (listedFields all [] order).mapError Prod.snd

end Scale.Derive
