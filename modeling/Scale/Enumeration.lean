import Scale.Integer

namespace Scale

/-- How the values of a type stand for integers of a fixed-width type. -/
structure IntegerCoding (α : Type) where
  /-- The underlying integer type. -/
  repr : FixedInt
  /-- The integer of a value. -/
  toRepr : α → Int
  /-- The value of an integer, if it has one. -/
  ofRepr? : Int → Option α

namespace IntegerCoding

variable {α : Type}

/-- Writes the integer of a value. -/
def put (coding : IntegerCoding α) (a : α) : Writer Unit :=
  coding.repr.put (coding.toRepr a)

/-- Reads an integer, which has to be that of a value. -/
def take (coding : IntegerCoding α) : Reader α := do
  match coding.ofRepr? (← coding.repr.take) with
  | some a => return a
  | none => throw .invalidEnumValue

end IntegerCoding

/-- A list of named alternatives, each with an integer of its own. -/
structure Enumeration where
  /-- The underlying integer type. -/
  repr : FixedInt
  /-- The alternatives with their integers. -/
  alternatives : List (String × Int)
  deriving DecidableEq, Repr, Inhabited

namespace Enumeration

/-- Gives every alternative its integer: the declared one, or one more than that of the
    alternative before it. `next` is the integer of the first one, should it declare none. -/
def number (next : Int) : List (String × Option Int) → List (String × Int)
  | [] => []
  | (name, declared) :: rest =>
    let n := declared.getD next
    (name, n) :: number (n + 1) rest

/-- The enumeration of the given declarations; an alternative at the front that declares no
    integer is zero. -/
def ofDeclared (repr : FixedInt) (declared : List (String × Option Int)) : Enumeration :=
  ⟨repr, number 0 declared⟩

/-- The integer of the alternative at an index. -/
def discriminant? (e : Enumeration) (i : Nat) : Option Int :=
  e.alternatives[i]?.map (·.2)

/-- The index of the first alternative whose integer, in the underlying type, is the given one. -/
def index? (e : Enumeration) (n : Int) : Option Nat :=
  e.alternatives.findIdx? fun alternative => e.repr.wrap alternative.2 == n

/-- Alternatives, given by their index, stand for their integers in the underlying type. -/
def coding (e : Enumeration) : IntegerCoding Nat where
  repr := e.repr
  toRepr i := e.repr.wrap ((e.discriminant? i).getD 0)
  ofRepr? := e.index?

end Enumeration

/-- A range of integers, ends included, coded as an integer of a fixed-width type. -/
structure IntegerRange where
  repr : FixedInt
  low : Int
  high : Int
  deriving DecidableEq, Repr, Inhabited

/-- The integers of a range stand for themselves. -/
def IntegerRange.coding (range : IntegerRange) : IntegerCoding Int where
  repr := range.repr
  toRepr n := n
  ofRepr? n := if range.low ≤ n ∧ n ≤ range.high then some n else none

end Scale
