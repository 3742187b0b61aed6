import Scale.Power

namespace Scale

/-- How the values of a type lie in memory. As a collection holds no more items than fit into memory,
    this is part of what the decoder does. -/
structure Layout where
  /-- The number of bytes, a multiple of the alignment. -/
  size : Nat
  /-- The alignment. -/
  align : Nat
  /-- The number of bit patterns that no value uses, in the place that has most of them. -/
  spare : Nat
  /-- The number of bytes of that place. -/
  spareWidth : Nat
  /-- Whether there is no value at all. -/
  vacant : Bool
  deriving DecidableEq, Repr, Inhabited

namespace Layout

/-- The least multiple of `align` that is not below `n`. -/
def roundUp (n align : Nat) : Nat :=
  (n + align - 1) / align * align

/-- A type with one value, which takes no room. -/
def unit : Layout :=
  ⟨0, 1, 0, 0, false⟩

/-- A type without values. -/
def never : Layout :=
  ⟨0, 1, 0, 0, true⟩

/-- A word of `size` bytes with some bit patterns to spare. -/
def word (size spare : Nat) : Layout :=
  ⟨size, size, spare, size, false⟩

/-- A control block of eight-byte words with some bit patterns of one word to spare. -/
def block (size spare : Nat) : Layout :=
  ⟨size, 8, spare, 8, false⟩

/-- Of two layouts the one with more to spare, the first one if they have the same. -/
def roomier (a b : Layout) : Layout :=
  if a.spare < b.spare then b else a

/-- All fields one after the other. Fields are ordered by falling alignment, so that no room is
    lost between them. -/
def product (fields : List Layout) : Layout :=
  let align := fields.foldl (fun align field => max align field.align) 1
  let size := fields.foldl (fun size field => size + field.size) 0
  let widest := fields.foldl roomier unit
  { size := roundUp size align
    align := align
    spare := widest.spare
    spareWidth := widest.spareWidth
    vacant := fields.any vacant }

/-- `count` items one after the other. -/
def array (count : Nat) (item : Layout) : Layout :=
  { size := count * item.size
    align := item.align
    spare := if count = 0 then 0 else item.spare
    spareWidth := item.spareWidth
    vacant := count ≠ 0 && item.vacant }

/-- Inserts a field in front of the first one with a greater alignment. -/
def insertByAlign (field : Layout) : List Layout → List Layout
  | [] => [field]
  | other :: rest =>
    if field.align < other.align then
      field :: other :: rest
    else
      other :: insertByAlign field rest

/-- The end of fields laid out from an offset, by rising alignment. -/
def endFrom (offset : Nat) (fields : List Layout) : Nat :=
  (fields.foldl (fun sorted field => insertByAlign field sorted) []).foldl
    (fun offset field => roundUp offset field.align + field.size) offset

/-- Alternatives with a one-byte tag in front of their fields. -/
def tagged (alternatives : List (List Layout)) : Layout :=
  let products := alternatives.map product
  let align := products.foldl (fun align alternative => max align alternative.align) 1
  let size := alternatives.foldl (fun size fields => max size (endFrom 1 fields)) 1
  { size := roundUp size align
    align := align
    spare := 256 - alternatives.length
    spareWidth := 1
    vacant := products.all vacant }

/-- The largest layout, the first one of equal size. -/
def largest : List Layout → Layout
  | [] => unit
  | first :: rest => rest.foldl (fun best other => if best.size < other.size then other else best) first

/-- Alternatives that share the memory of the largest one, told apart by bit patterns that it has
    to spare. Only the largest one itself may lack room beside the place of the patterns. -/
def shared? (alternatives : List (List Layout)) : Option Layout :=
  let products := alternatives.map product
  let host := largest products
  let tags := alternatives.length - 1
  let align := products.foldl (fun align alternative => max align alternative.align) 1
  let crowded := products.countP fun alternative =>
    host.size < roundUp host.spareWidth alternative.align + alternative.size
  if host.spare < tags ∨ 1 < crowded then
    none
  else
    some
      { size := roundUp host.size align
        align := align
        spare := host.spare - tags
        spareWidth := host.spareWidth
        vacant := false }

/-- Of alternatives with a tag and alternatives in shared memory, the smaller layout; of two equal
    sizes the one with more to spare. -/
def choose (tagged : Layout) : Option Layout → Layout
  | none => tagged
  | some shared =>
    if shared.size < tagged.size ∨ shared.size = tagged.size ∧ tagged.spare < shared.spare then
      shared
    else
      tagged

/-- Alternatives, each given by its fields. Those that can never occur and take no room are left
    out; a single one needs no tag. -/
def sum (alternatives : List (List Layout)) : Layout :=
  let present := alternatives.filter fun fields =>
    let alternative := product fields
    !(alternative.vacant && alternative.size == 0)
  match present with
  | [] => never
  | [fields] => product fields
  | _ => choose (tagged present) (shared? present)

/-- The smallest of 1, 2, 4, 8 and 16 bytes that holds every integer from `low` to `high`. -/
def integerSize (low high : Int) : Nat :=
  let fits (bytes : Nat) : Bool :=
    if low < 0 then
      -(256 ^ bytes / 2 : Nat) ≤ low && high < (256 ^ bytes / 2 : Nat)
    else
      high < (256 ^ bytes : Nat)
  ([1, 2, 4, 8].find? fits).getD 16

/-- Named integers in the smallest word that holds them all; a single one needs no room. -/
def integers : List Int → Layout
  | [] => never
  | [_] => unit
  | first :: rest =>
    let low := rest.foldl min first
    let high := rest.foldl max first
    let size := integerSize low high
    word size (256 ^ size - (high - low + 1).toNat)

end Layout

end Scale
