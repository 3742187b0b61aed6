import Scale.Definitions
import Scale.Value.Lawful

namespace Scale

/-- A sorted set or map whose keys are ordered by what they are made of. -/
def Keying.sorted : Keying := ⟨.sorted, .structural⟩

/-- A hashed one whose keys are listed in that order. -/
def Keying.hashed : Keying := ⟨.hashed, .structural⟩

/-- The value of a set with its items in that order. -/
def Value.set (items : List Value) : Value :=
  KeyOrder.structural.set items

/-- The value of a map with its keys in that order. -/
def Value.map (entries : List (Value × Value)) : Value :=
  KeyOrder.structural.map entries

/-- The one value of a type whose lists are told by their number: a type with one value, or an array
    of such. What a field that is not coded takes is up to its `Selection`. -/
def Schema.default {ι ω : Type} : Schema ι ω → Value
  | array count item => .list (List.replicate count item.default)
  | _ => .unit

end Scale

namespace Scale.Catalogue

/-- The recursive types of the catalogue. -/
inductive Recursive where
  /-- A chain of bytes. -/
  | list
  /-- A tree with numbers at its leaves. -/
  | tree
  deriving DecidableEq, Repr, Inhabited

variable {ι ω : Type}

/-- A growable array. -/
def vector (item : Schema ι ω) : Schema ι ω :=
  .sequence .vector item

/-- A byte. -/
def u8 : Schema ι ω := .int .u8

/-- A 16-bit word. -/
def u16 : Schema ι ω := .int .u16

/-- A 32-bit word. -/
def u32 : Schema ι ω := .int .u32

/-- A signed 32-bit word. -/
def i32 : Schema ι ω := .int .i32

/-- A compact 32-bit word. -/
def compactU32 : Schema ι ω := .compact (.fixed .u32)

/-- Two signed coordinates. -/
def point : Schema ι ω :=
  .product (.names ["x", "y"]) [i32, i32]

/-- A compact number, two optional parts around a list, and a cache that is not coded. -/
def packet : Schema ι ω :=
  .record (.names ["id", "flags", "points", "cached"]) ⟨[0, 1, 2], fun _ => .absent⟩
    [.compact (.fixed .u64), .option .bool, vector point, .option .text]

/-- A byte and a compact number. -/
def wrapper : Schema ι ω :=
  .product .positions [u8, compactU32]

/-- A single truth value. -/
def flag : Schema ι ω :=
  .product .positions [.bool]

/-- A product without fields. -/
def unitRecord : Schema ι ω :=
  .product .none []

/-- Only the three fields in the middle are coded. -/
def partialRecord : Schema ι ω :=
  .record (.names ["a", "b", "c", "d", "e"]) ⟨[1, 2, 3], fun _ => .int 0⟩ [u8, u8, u8, u8, u8]

/-- Two fields are coded, the later one first. -/
def reordered : Schema ι ω :=
  .record (.names ["a", "b", "c"]) ⟨[2, 0], fun _ => .text ""⟩ [u16, .text, u8]

/-- Two fields by position, the later one first. -/
def tupleOrder : Schema ι ω :=
  .record .positions ⟨[2, 0], fun _ => .int 0⟩ [u8, u16, u32]

/-- All fields are coded, in another order than declared. -/
def swapped : Schema ι ω :=
  .record (.names ["p", "n"]) ⟨[1, 0], fun _ => .unit⟩ [partialRecord, u8]

/-- A partly coded record and a byte, coded as declared. -/
def holder : Schema ι ω :=
  .product (.names ["p", "n"]) [partialRecord, u8]

/-- A number that is not coded, and partly coded records in every position. -/
def keep : Schema ι ω :=
  .record (.names ["id", "p", "c", "v", "o", "h"]) ⟨[1, 2, 3, 4, 5], fun _ => .int 0⟩
    [u32, partialRecord, compactU32, vector partialRecord, .option partialRecord, holder]

/-- No field is coded, though the record takes room in memory. -/
def allSkip : Schema ι ω :=
  .record (.names ["a", "b"]) ⟨[], fun _ => .int 0⟩ [u8, u32]

/-- One byte, which is not coded. -/
def noFields : Schema ι ω :=
  .record (.names ["a"]) ⟨[], fun _ => .int 0⟩ [u8]

/-- Compact numbers of any size beside a wide word and bits. -/
def ledger : Schema ι ω :=
  .product (.names ["total", "delta", "small", "wide", "bits"])
    [.compact (.big false), .compact (.big true), .compact (.fixed .i8), .wide 32, .bits]

/-- Items and a last one. -/
def generic (item : Schema ι ω) : Schema ι ω :=
  .product (.names ["items", "last"]) [vector item, .option item]

/-- Two fields with an uncoded text between them. -/
def pair (first second : Schema ι ω) : Schema ι ω :=
  .record .positions ⟨[0, 2], fun _ => .text ""⟩ [first, .text, second]

/-- A number and, perhaps, a further list. -/
def listBody : Schema Recursive ω :=
  .product (.names ["head", "tail"]) [u8, .option (.pointer (.ref .list))]

/-- A leaf with a number, or a node with any number of trees. -/
def treeBody : Schema Recursive ω :=
  .sum ["Leaf", "Node"]
    [.product .positions [compactU32], .product .positions [vector (.ref .tree)]]

/-- A number in one of two widths. -/
def wordSum : Schema ι ω :=
  .sum ["Small", "Large"] [.product .positions [u8], .product .positions [u32]]

/-- Alternatives of every kind: empty, with named fields, by position, partly coded. -/
def shape : Schema ι ω :=
  .sum ["Empty", "Circle", "Rect", "Sized"]
    [.product .none [],
      .product (.names ["radius"]) [u32],
      .product .positions [point, point],
      .record (.names ["size", "note"]) ⟨[0], fun _ => .text ""⟩ [.compact (.fixed .u128), .text]]

/-- A sum without alternatives, so without values. -/
def never : Schema ι ω :=
  .sum [] []

/-- Alternatives without content, told apart by their tag. -/
def plainSum (names : List String) : Schema ι ω :=
  .sum names (names.map fun _ => .product .none [])

/-- A sum with a single alternative. It takes no room in memory, yet one byte is written. -/
def one : Schema ι ω :=
  plainSum ["Only"]

/-- As many alternatives as a tag can tell apart. -/
def everyTag : Schema ι ω :=
  plainSum ((List.range 256).map fun i => "V" ++ toString i)

/-- Bytes with gaps between them. -/
def color : Enumeration :=
  .ofDeclared .u8 [("Red", some 1), ("Green", some 2), ("Blue", some 4)]

/-- A signed integer of two bytes. -/
def delta : Enumeration :=
  .ofDeclared .i16 [("Down", some (-1)), ("Still", some 0), ("Up", some 300)]

/-- The least and the greatest byte. -/
def edge : Enumeration :=
  .ofDeclared .u8 [("Low", some 0), ("High", some 255)]

/-- The least and the greatest signed byte. -/
def signed : Enumeration :=
  .ofDeclared .i8 [("Min", some (-128)), ("Max", some 127)]

/-- An integer of two bytes whose alternatives differ in both. -/
def level : Enumeration :=
  .ofDeclared .u16 [("Low", some 1), ("High", some 0x100)]

/-- Some integers given, the others counted on from the one before. -/
def seq : Enumeration :=
  .ofDeclared .u32 [("A", none), ("B", none), ("C", some 10), ("D", none), ("E", some 70000)]

/-- The ends of the signed 64-bit range. -/
def far : Enumeration :=
  .ofDeclared .i64
    [("Lo", some (-9223372036854775808)), ("Mid", some (-1)), ("Hi", some 9223372036854775807)]

/-- An integer of sixteen bytes. -/
def vast : Enumeration :=
  .ofDeclared .u128 [("Zero", none), ("Top", some 9223372036854775807)]

/-- A signed integer of sixteen bytes. -/
def cold : Enumeration :=
  .ofDeclared .i128 [("Neg", some (-2)), ("Pos", some 5)]

/-- The numbers from 0 to 100. -/
def percent : IntegerRange :=
  ⟨.u8, 0, 100⟩

/-- What the recursive types stand for. -/
def definitions : Definitions Recursive ω where
  body
    | .list => listBody
    | .tree => treeBody
  layout
    | .list => ⟨16, 8, 0, 0, false⟩
    | .tree => .block 24 (2 ^ 63 - 1)
  guarded_body i := by cases i <;> rfl

/-- They lie in memory like their schemas. -/
theorem layout_body (i : Recursive) :
    ((definitions : Definitions Recursive ω).body i).layout
        (definitions : Definitions Recursive ω).layout =
      (definitions : Definitions Recursive ω).layout i := by
  cases i
  · simp only [definitions, listBody, u8, Schema.product, Schema.layout, Schema.layouts]
    decide
  · simp only [definitions, treeBody, compactU32, vector, Schema.product, Schema.layout,
      Schema.fieldLayouts, Schema.layouts]
    decide

/-- The declared type of a name, given the types that it is applied to. -/
def find? (name : String) (arguments : List (Schema Recursive ω)) :
    Option (Schema Recursive ω) :=
  match name, arguments with
  | "Point", [] => some point
  | "Packet", [] => some packet
  | "Wrapper", [] => some wrapper
  | "Flag", [] => some flag
  | "Unit", [] => some unitRecord
  | "Partial", [] => some partialRecord
  | "Reordered", [] => some reordered
  | "TupleOrder", [] => some tupleOrder
  | "Swapped", [] => some swapped
  | "Holder", [] => some holder
  | "Keep", [] => some keep
  | "AllSkip", [] => some allSkip
  | "NoFields", [] => some noFields
  | "Ledger", [] => some ledger
  | "Generic", [item] => some (generic item)
  | "Pair", [first, second] => some (pair first second)
  | "List", [] => some (.ref .list)
  | "Tree", [] => some (.ref .tree)
  | "U8OrU32", [] => some wordSum
  | "Shape", [] => some shape
  | "Never", [] => some never
  | "One", [] => some one
  | "Wide", [] => some everyTag
  | "Color", [] => some (.enumeration color)
  | "Delta", [] => some (.enumeration delta)
  | "Edge", [] => some (.enumeration edge)
  | "Signed", [] => some (.enumeration signed)
  | "Level", [] => some (.enumeration level)
  | "Seq", [] => some (.enumeration seq)
  | "Far", [] => some (.enumeration far)
  | "Vast", [] => some (.enumeration vast)
  | "Cold", [] => some (.enumeration cold)
  | "Percent", [] => some (.range percent)
  | _, _ => none

end Scale.Catalogue
