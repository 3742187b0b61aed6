import Scale.Value.Basic

namespace Scale

/-- The total order of the values of a key type, by which a set or map finds and lists its keys. Each
    key type has an order of its own. How it goes on to values that are not of the type is of no
    account: every total order of some values can be continued to all of them
    (`KeyOrder.exists_continues`). -/
structure KeyOrder where
  /-- Compares two keys. -/
  cmp : Value → Value → Ordering
  transitive : Std.TransCmp cmp
  lawful : Std.LawfulEqCmp cmp

attribute [instance] KeyOrder.transitive KeyOrder.lawful

namespace KeyOrder

variable (order : KeyOrder)

/-- Puts an item into a strictly sorted list; an equal item that is there already stays. -/
def insertItem (item : Value) : List Value → List Value
  | [] => [item]
  | other :: rest =>
    match order.cmp item other with
    | .lt => item :: other :: rest
    | .eq => other :: rest
    | .gt => other :: insertItem item rest

/-- Puts an entry into a list that is strictly sorted by key. An equal key that is there already
    stays and takes the new value. -/
def insertEntry (key value : Value) : List (Value × Value) → List (Value × Value)
  | [] => [(key, value)]
  | (other, old) :: rest =>
    match order.cmp key other with
    | .lt => (key, value) :: (other, old) :: rest
    | .eq => (other, value) :: rest
    | .gt => (other, old) :: insertEntry key value rest

/-- The strictly sorted list of the given items, inserted one by one. A set does not depend on the
    order of its items. -/
def setOfList (items : List Value) : List Value :=
  items.foldl (fun set item => order.insertItem item set) []

/-- The strictly sorted entries that remain when the given ones are inserted one by one: each key
    has the last value it is given. -/
def mapOfEntries (entries : List (Value × Value)) : List (Value × Value) :=
  entries.foldl (fun map entry => order.insertEntry entry.1 entry.2 map) []

/-- The value of a set. -/
def set (items : List Value) : Value :=
  .list (order.setOfList items)

/-- The value of a map: each entry is the list of its key and its value. -/
def map (entries : List (Value × Value)) : Value :=
  .list ((order.mapOfEntries entries).map fun entry => .list [entry.1, entry.2])

end KeyOrder

end Scale
