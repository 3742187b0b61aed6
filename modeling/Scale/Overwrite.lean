import Scale.Decode

namespace Scale

namespace Reader

/-- Reads over the given items, one after the other, putting the results in front of those already
    there, last one first; then reads `more` items afresh. -/
def overwriteOnto {α : Type} (renew : α → Reader α) (item : Reader α) (more : Nat) :
    List α → List α → Reader (List α)
  | [], done => readManyOnto item more done
  | old :: olds, done => do overwriteOnto renew item more olds ((← renew old) :: done)

/-- Reads `count` items, the first of them over the given ones. -/
def overwriteMany {α : Type} (renew : α → Reader α) (item : Reader α) (count : Nat)
    (olds : List α) : Reader (List α) :=
  let kept := olds.take count
  overwriteOnto renew item (count - kept.length) kept []

end Reader

namespace Schema

variable {ι : Type}

mutual

/-- Reads over a value of a schema, with `self` and `selfOver` for the recursive types. -/
def overwriteWith (named : ι → Layout) (self : ι → Reader Value)
    (selfOver : ι → Value → Reader Value) : Schema ι Empty → Value → Reader Value
  | sequence .vector item => fun old => do
    let count ← Reader.takeItemCount (item.size named) maxCount
    return .list (← Reader.overwriteMany (overwriteWith named self selfOver item)
      (item.readWith named self) count old.items)
  | array count item => fun old =>
    return .list (← Reader.overwriteMany (overwriteWith named self selfOver item)
      (item.readWith named self) count old.items)
  | tuple items => fun old =>
    return .list (← overwriteAll named self selfOver items old.items)
  | record labels selection fields => fun old =>
    if selection.order.length = fields.length then
      (record labels selection fields).readWith named self
    else do
      let vs ← selection.order.mapM fun i => overwriteAt named self selfOver fields old.items i
      return .list (Value.place selection.order vs old.items)
  | ref name => selfOver name
  | s => fun _ => s.readWith named self

/-- Reads over one value after the other. A value that is missing is read afresh. -/
def overwriteAll (named : ι → Layout) (self : ι → Reader Value)
    (selfOver : ι → Value → Reader Value) :
    List (Schema ι Empty) → List Value → Reader (List Value)
  | [], _ => return []
  | s :: ss, [] => do
    let v ← s.readWith named self
    let vs ← overwriteAll named self selfOver ss []
    return v :: vs
  | s :: ss, old :: olds => do
    let v ← overwriteWith named self selfOver s old
    let vs ← overwriteAll named self selfOver ss olds
    return v :: vs

/-- Reads over the value at an index. A value that is missing is read afresh. -/
def overwriteAt (named : ι → Layout) (self : ι → Reader Value)
    (selfOver : ι → Value → Reader Value) :
    List (Schema ι Empty) → List Value → Nat → Reader Value
  | [], _, _ => throw .wrongTypeIndex
  | s :: _, old :: _, 0 => overwriteWith named self selfOver s old
  | s :: _, [], 0 => s.readWith named self
  | _ :: ss, olds, i + 1 => overwriteAt named self selfOver ss olds.tail i

end

end Schema

namespace Definitions

variable {ι : Type} (defs : Definitions ι Empty)

/-- Reads over a value of a recursive type whose calls nest no deeper than `depth`. -/
def overwriteRef : Nat → ι → Value → Reader Value
  | 0, _, _ => throw .notEnoughData
  | depth + 1, name, old =>
    (defs.body name).overwriteWith defs.layout (defs.readRef depth) (overwriteRef depth) old

/-- Reads over a value. A record all of whose fields are coded is replaced as a whole, the uncoded
    fields of records within it included. After a failure the old value is lost. -/
def overwrite (s : Schema ι Empty) (old : Value) : Reader Value := do
  let depth := (← Reader.remaining) + 1
  s.overwriteWith defs.layout (defs.readRef depth) (defs.overwriteRef depth) old

end Definitions

end Scale
