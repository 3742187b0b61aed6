import Scale.Value.Basic

namespace Scale.Value

/-- Compares two lists by their first difference; a list that ends early comes first. -/
def compareLex {α : Type} (cmp : α → α → Ordering) : List α → List α → Ordering
  | [], [] => .eq
  | [], _ :: _ => .lt
  | _ :: _, [] => .gt
  | x :: xs, y :: ys => (cmp x y).then (compareLex cmp xs ys)

/-- Where the kind of a value stands among the others. Values of one schema differ in kind only
    if one of them is absent or dangling. -/
def rank : Value → Nat
  | int _ => 0
  | bool _ => 1
  | text _ => 2
  | blob _ => 3
  | bits _ => 4
  | absent => 5
  | present _ => 6
  | list _ => 7
  | tagged _ _ => 8
  | dangling => 9

mutual

/-- The order that values have by what they are made of: integers by size, texts and bytes
    lexicographically, an absent value before a present one, lists lexicographically, and
    alternatives by their index before their contents. -/
def cmp : Value → Value → Ordering
  | int m, int n => compare m n
  | bool a, bool b => compare a b
  | text s, text t => compare s t
  | blob xs, blob ys => compareLex compare xs ys
  | bits a, bits b => compareLex compare a.toList b.toList
  | present v, present w => cmp v w
  | list vs, list ws => cmpList vs ws
  | tagged i v, tagged j w => (compare i j).then (cmp v w)
  | v, w => compare v.rank w.rank

/-- The lexicographic order of lists of values. -/
def cmpList : List Value → List Value → Ordering
  | [], [] => .eq
  | [], _ :: _ => .lt
  | _ :: _, [] => .gt
  | v :: vs, w :: ws => (cmp v w).then (cmpList vs ws)

end

end Scale.Value
