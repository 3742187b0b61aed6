import Scale.BitSeq

namespace Scale

/-- A value of any schema. -/
inductive Value where
  /-- An integer of any integer type. -/
  | int (n : Int)
  /-- A truth value. -/
  | bool (b : Bool)
  /-- A text. -/
  | text (s : String)
  /-- A span of bytes. -/
  | blob (bytes : List UInt8)
  /-- A bit sequence. -/
  | bits (b : BitSeq)
  /-- The optional value that is not there. -/
  | absent
  /-- An optional value that is there. -/
  | present (content : Value)
  /-- The items of a collection or the fields of a product. -/
  | list (items : List Value)
  /-- An alternative of a sum, by its index, with what it holds. -/
  | tagged (index : Nat) (payload : Value)
  /-- A weak pointer whose value is gone. -/
  | dangling
  deriving Inhabited

namespace Value

/-- The value of a type that has only one. -/
def unit : Value :=
  list []

/-- The items of a list, and no items for any other value. -/
def items : Value → List Value
  | list items => items
  | _ => []

/-- Overwrites the values at the given positions, one after the other. -/
def place : List Nat → List Value → List Value → List Value
  | i :: positions, v :: vs, fields => place positions vs (fields.set i v)
  | _, _, fields => fields

mutual

/-- One more than the number of values that a value is nested in, at its deepest point. -/
def depth : Value → Nat
  | present content => content.depth + 1
  | list items => depthList items + 1
  | tagged _ payload => payload.depth + 1
  | _ => 1

/-- The greatest depth in a list. -/
def depthList : List Value → Nat
  | [] => 0
  | v :: vs => max v.depth (depthList vs)

end

end Value

end Scale
