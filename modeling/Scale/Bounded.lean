import Scale.Counted

namespace Scale

/-- A list of at most `bound` items. -/
structure Bounded (bound : Nat) (α : Type) where
  items : List α
  length_le : items.length ≤ bound
  deriving DecidableEq

namespace Bounded

variable {bound : Nat} {α : Type}

/-- The list without items. -/
def empty : Bounded bound α :=
  ⟨[], Nat.zero_le _⟩

instance : Inhabited (Bounded bound α) := ⟨empty⟩

/-- Appends an item, or hands it back when the list is full. -/
def push (list : Bounded bound α) (item : α) : Except α (Bounded bound α) :=
  if h : list.items.length < bound then
    .ok ⟨list.items ++ [item], by rw [List.length_append]; exact h⟩
  else
    .error item

/-- The bounded list of the given items, which are handed back when there are too many. -/
def ofList (items : List α) : Except (List α) (Bounded bound α) :=
  if h : items.length ≤ bound then .ok ⟨items, h⟩ else .error items

/-- The item at an index, if there is one. -/
def get? (list : Bounded bound α) (i : Nat) : Option α :=
  list.items[i]?

/-- Compares two lists of items by their first difference; one that ends early comes first. -/
def compareItems [Ord α] : List α → List α → Ordering
  | [], [] => .eq
  | [], _ :: _ => .lt
  | _ :: _, [] => .gt
  | x :: xs, y :: ys => (compare x y).then (compareItems xs ys)

instance [Ord α] : Ord (Bounded bound α) where
  compare a b := compareItems a.items b.items

/-- Writes the number of items and the items. -/
def put (item : α → Writer Unit) (list : Bounded bound α) : Writer Unit :=
  Writer.putCounted item list.items

/-- Reads a bounded list of items that have the given size in memory. -/
def take (itemSize : Nat) (item : Reader α) : Reader (Bounded bound α) := do
  let count ← Reader.takeItemCount itemSize bound
  match ofList (← Reader.readMany count item) with
  | .ok list => return list
  | .error _ => throw .tooManyItems

end Bounded

end Scale
