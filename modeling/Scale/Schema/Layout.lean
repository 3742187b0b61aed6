import Scale.Layout
import Scale.Schema.Basic

namespace Scale.Schema

variable {ι ω : Type}

mutual

/-- Where the values of a schema lie in memory, given the layouts of the recursive types. Text,
    collections and pointers take the room of their control block whatever they hold. -/
def layout (named : ι → Layout) : Schema ι ω → Layout
  | unit => .unit
  | bool => .word 1 254
  | int t => .word t.bytes 0
  | wide _ => .block 24 (2 ^ 63)
  | compact t =>
    match t with
    | .fixed t => .word t.bytes 0
    | .word _ => .word 8 0
    | .big signed => if signed then .block 32 (2 ^ 63) else .block 24 (2 ^ 63)
  | text => .block 24 (2 ^ 63)
  | blob => .block 32 0
  | bits => .block 32 (2 ^ 63)
  | option content => .sum [[], [layout named content]]
  | result success failure => .sum [[layout named success], [layout named failure]]
  | sequence kind _ =>
    match kind with
    | .vector => .block 24 (2 ^ 63)
    | .deque => .block 32 (2 ^ 63)
    | .bounded _ => .block 24 (2 ^ 63)
  | set keys _ => tableLayout keys.kind
  | map keys _ _ => tableLayout keys.kind
  | array count item => .array count (layout named item)
  | tuple items => .product (layouts named items)
  | pointer _ => .block 8 1
  | weak _ _ => .block 8 1
  | encoded _ => .block 24 (2 ^ 63)
  | record _ _ fields => .product (layouts named fields)
  | sum _ alternatives => .sum (fieldLayouts named alternatives)
  | enumeration e => .integers (e.alternatives.map (·.2))
  | range r => .word r.repr.bytes 0
  | ref name => named name
where
  /-- The control block of a set or map. -/
  tableLayout : TableKind → Layout
    | .sorted => .block 24 0
    | .hashed => .block 48 1

/-- The layouts of a list of schemas. -/
def layouts (named : ι → Layout) : List (Schema ι ω) → List Layout
  | [] => []
  | s :: ss => layout named s :: layouts named ss

/-- For each alternative the layouts of its fields. -/
def fieldLayouts (named : ι → Layout) : List (Schema ι ω) → List (List Layout)
  | [] => []
  | record _ _ fields :: ss => layouts named fields :: fieldLayouts named ss
  | s :: ss => [layout named s] :: fieldLayouts named ss

end

/-- The number of bytes of memory that a value takes. -/
def size (named : ι → Layout) (s : Schema ι ω) : Nat :=
  (s.layout named).size

end Scale.Schema
