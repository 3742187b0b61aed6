namespace Scale.Derive

/-- A literal in an attribute. -/
inductive Literal where
  | text (s : String)
  | integer (n : Nat)
  | truth (b : Bool)
  deriving DecidableEq, Repr, Inhabited

/-- A path, by its segments. -/
abbrev Path := List String

/-- What stands in an attribute. -/
inductive Meta where
  /-- A bare path. -/
  | path (path : Path)
  /-- A path with a list in parentheses. -/
  | list (path : Path) (items : List Meta)
  /-- A path that is set to a literal. -/
  | assign (path : Path) (value : Literal)
  /-- A bare literal, which only stands within lists. -/
  | literal (value : Literal)
  deriving Repr, Inhabited

/-- The path of an attribute, if it has one. -/
def Meta.path? : Meta → Option Path
  | path p => some p
  | list p _ => some p
  | assign p _ => some p
  | literal _ => none

/-- What a field is called: its name, or its index if it has none. -/
inductive Member where
  | name (s : String)
  | index (n : Nat)
  deriving DecidableEq, Repr, Inhabited

/-- The text of a member. -/
def Member.text : Member → String
  | name s => s
  | index n => toString n

/-- A declared field; the fields of a tuple have no names. -/
structure Field (τ : Type) where
  name? : Option String
  type : τ
  attributes : List Meta
  deriving Repr, Inhabited

/-- The fields of a product. -/
inductive Fields (τ : Type) where
  /-- No parentheses and no braces, and so no fields. -/
  | unit
  /-- Fields in parentheses. -/
  | tuple (fields : List (Field τ))
  /-- Fields in braces. -/
  | named (fields : List (Field τ))
  deriving Repr, Inhabited

/-- The fields in order. -/
def Fields.toList {τ : Type} : Fields τ → List (Field τ)
  | unit => []
  | tuple fields => fields
  | named fields => fields

/-- A declared alternative. -/
structure Alternative (τ : Type) where
  name : String
  fields : Fields τ
  /-- The integer that the alternative declares for itself. -/
  discriminant? : Option Int
  attributes : List Meta
  deriving Repr, Inhabited

/-- A parameter of a type. -/
inductive Param where
  | lifetime (name : String)
  | type (name : String)
  | constant (name : String)
  deriving DecidableEq, Repr, Inhabited

/-- Whether a parameter is a type. -/
def Param.isType : Param → Bool
  | type _ => true
  | _ => false

/-- What is declared. -/
inductive Body (τ : Type) where
  | record (fields : Fields τ)
  | sum (alternatives : List (Alternative τ))
  | union (fields : Fields τ)
  deriving Repr, Inhabited

/-- A type declaration. -/
structure Item (τ : Type) where
  name : String
  attributes : List Meta
  params : List Param
  body : Body τ
  deriving Repr, Inhabited

end Scale.Derive
