import Scale.Enumeration
import Scale.Value.Table

namespace Scale

/-- The collections that keep their items in order. -/
inductive SequenceKind where
  /-- A growable array, the one collection whose items are overwritten in place. -/
  | vector
  /-- A double-ended queue. -/
  | deque
  /-- A growable array of at most `bound` items. -/
  | bounded (bound : Nat)
  deriving DecidableEq, Repr, Inhabited

/-- How a set or map finds its keys. -/
inductive TableKind where
  | sorted
  | hashed
  deriving DecidableEq, Repr, Inhabited

/-- The keys of a set or map. A hashed one keeps no order; its value lists the keys in one. -/
structure Keying where
  kind : TableKind
  order : KeyOrder

/-- How the fields of a product are called. -/
inductive Labels where
  /-- There are no fields. -/
  | none
  /-- Fields are called by their position. -/
  | positions
  /-- Fields are called by the given names. -/
  | names (names : List String)
  deriving DecidableEq, Repr, Inhabited

/-- Which fields of a product are coded, and what the others take when it is read. Both are up to the
    declaration: two products with the same fields may differ in them. -/
structure Selection where
  /-- The positions of the coded fields, in coding order. -/
  order : List Nat
  /-- The default value of the field at a position. -/
  default : Nat → Value

namespace Selection

/-- All of so many fields, in order. -/
def all (count : Nat) : Selection :=
  ⟨List.range count, fun _ => .unit⟩

/-- The default values of so many fields. -/
def blank (selection : Selection) (count : Nat) : List Value :=
  (List.range count).map selection.default

end Selection

/-- A type of the codec, as data: how its values are written and read, and how they lie in memory.
    `ι` names types that a schema refers to by `ref`, recursive ones above all; what the names stand
    for is kept in `Definitions`. `ω` is the permission for what can be written and not read: schemas
    over `Empty` are coded both ways, and those over `Unit` may hold weak pointers and items that are
    encoded already. -/
inductive Schema (ι ω : Type) where
  /-- The type with one value, which takes no bytes. -/
  | unit
  /-- A truth value. -/
  | bool
  /-- An integer of fixed width. -/
  | int (t : FixedInt)
  /-- An unsigned integer of `width` bytes, beyond the native widths. -/
  | wide (width : Nat)
  /-- An integer in the compact layout of the stream. -/
  | compact (t : IntegerType)
  /-- A text, counted in bytes. -/
  | text
  /-- A counted span of bytes. -/
  | blob
  /-- A counted bit sequence. -/
  | bits
  /-- A value that may be missing. -/
  | option (content : Schema ι ω)
  /-- One of two values, alternative 0 being success and alternative 1 failure. -/
  | result (success failure : Schema ι ω)
  /-- Counted items in order. -/
  | sequence (kind : SequenceKind) (item : Schema ι ω)
  /-- Counted items without repetition. -/
  | set (keys : Keying) (item : Schema ι ω)
  /-- Counted keys with their values. -/
  | map (keys : Keying) (key value : Schema ι ω)
  /-- A fixed number of items. -/
  | array (count : Nat) (item : Schema ι ω)
  /-- Items of different types. -/
  | tuple (items : List (Schema ι ω))
  /-- A pointer, owning or borrowing, to a value. -/
  | pointer (pointee : Schema ι ω)
  /-- A pointer whose value may be gone. -/
  | weak (writeOnly : ω) (pointee : Schema ι ω)
  /-- Bytes that are encoded already. -/
  | encoded (writeOnly : ω)
  /-- A product of fields, listed as declared, of which the selected ones are coded. -/
  | record (labels : Labels) (selection : Selection) (fields : List (Schema ι ω))
  /-- One of several named alternatives, told apart by a tag. -/
  | sum (names : List String) (alternatives : List (Schema ι ω))
  /-- One of several named integers. -/
  | enumeration (e : Enumeration)
  /-- An integer out of a range. -/
  | range (r : IntegerRange)
  /-- A type that is known by its name. -/
  | ref (name : ι)
  deriving Inhabited

namespace Schema

variable {ι ω : Type}

/-- Whether the schema is that of bare truth values, which an option packs into one byte. -/
def isBool : Schema ι ω → Bool
  | bool => true
  | _ => false

/-- The product of all the given fields, every one of them coded, in order. -/
def product (labels : Labels) (fields : List (Schema ι ω)) : Schema ι ω :=
  record labels (.all fields.length) fields

end Schema

end Scale
