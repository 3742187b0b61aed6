import Scale.BitSeq.Codec
import Scale.Definitions
import Scale.WideUInt

namespace Scale

/-- The text that bytes spell in UTF-8, which they have to do strictly. -/
def textOfBytes? (bytes : List UInt8) : Option String :=
  String.fromUTF8? ⟨bytes.toArray⟩

namespace Reader

/-- Reads a truth value, 0 or 1. -/
def takeBool : Reader Bool := do
  match (← takeByte).toNat with
  | 0 => return false
  | 1 => return true
  | _ => throw .unexpectedValue

/-- Reads an optional truth value out of one byte: 0 for none, 1 for true and 2 for false. -/
def takePacked : Reader Value := do
  match (← takeByte).toNat with
  | 0 => return .absent
  | 1 => return .present (.bool true)
  | 2 => return .present (.bool false)
  | _ => throw .unexpectedValue

/-- Reads a text. Its bytes are taken before they are looked at. -/
def takeText : Reader String := do
  match textOfBytes? (← takeCountedSpan) with
  | some s => return s
  | none => throw .unexpectedValue

end Reader

/-- The largest count that a sequence may have by its kind. -/
def SequenceKind.limit : SequenceKind → Nat
  | vector => maxCount
  | deque => maxCount
  | bounded bound => bound

namespace Schema

variable {ι : Type}

mutual

/-- Reads a value of a schema, with `self` to read the recursive types and `named` to lay them
    out. -/
def readWith (named : ι → Layout) (self : ι → Reader Value) : Schema ι Empty → Reader Value
  | unit => return .unit
  | bool => return .bool (← Reader.takeBool)
  | int t => return .int (← t.take)
  | wide width => do
    let n : WideUInt width ← WideUInt.take
    return .int n.val
  | compact t => return .int (← Reader.takeCompact t)
  | text => return .text (← Reader.takeText)
  | blob => return .blob (← Reader.takeCountedSpan)
  | bits => return .bits (← BitSeq.take)
  | option content =>
    if content.isBool then
      Reader.takePacked
    else do
      if ← Reader.takeBool then
        return .present (← readWith named self content)
      else
        return .absent
  | result success failure => do
    match ← Reader.takeTag 2 with
    | 0 => return .tagged 0 (← readWith named self success)
    | _ => return .tagged 1 (← readWith named self failure)
  | sequence kind item => do
    let count ← Reader.takeItemCount (item.size named) kind.limit
    return .list (← Reader.readMany count (readWith named self item))
  | set keys item => do
    let count ← Reader.takeItemCount (item.size named) maxCount
    return keys.order.set (← Reader.readMany count (readWith named self item))
  | map keys key value => do
    let count ← Reader.takeItemCount ((tuple [key, value]).size named) maxCount
    return keys.order.map (← Reader.readMany count do
      let k ← readWith named self key
      let v ← readWith named self value
      return (k, v))
  | array count item => return .list (← Reader.readMany count (readWith named self item))
  | tuple items => return .list (← readAll named self items)
  | pointer pointee => readWith named self pointee
  | weak writeOnly _ => writeOnly.elim
  | encoded writeOnly => writeOnly.elim
  | record _ selection fields => do
    let vs ← selection.order.mapM fun i => readNth named self fields i
    return .list (Value.place selection.order vs (selection.blank fields.length))
  | sum _ alternatives => do
    let tag ← Reader.takeTag alternatives.length
    return .tagged tag (← readNth named self alternatives tag)
  | enumeration e => return .tagged (← e.coding.take) .unit
  | range r => return .int (← r.coding.take)
  | ref name => self name

/-- Reads one value after the other. -/
def readAll (named : ι → Layout) (self : ι → Reader Value) :
    List (Schema ι Empty) → Reader (List Value)
  | [] => return []
  | s :: ss => do
    let v ← readWith named self s
    let vs ← readAll named self ss
    return v :: vs

/-- Reads a value of the schema at an index. -/
def readNth (named : ι → Layout) (self : ι → Reader Value) :
    List (Schema ι Empty) → Nat → Reader Value
  | [], _ => throw .wrongTypeIndex
  | s :: _, 0 => readWith named self s
  | _ :: ss, i + 1 => readNth named self ss i

end

end Schema

namespace Definitions

variable {ι : Type} (defs : Definitions ι Empty)

/-- Reads a value of a recursive type whose calls nest no deeper than `depth`, which is more than
    there are bytes left. -/
def readRef : Nat → ι → Reader Value
  | 0, _ => throw .notEnoughData
  | depth + 1, name => (defs.body name).readWith defs.layout (readRef depth)

/-- Reads a value off the source. Every call on a named type but the first comes after a byte has been
    taken, so the number of bytes left bounds how deeply such calls nest. What was taken up to a
    failure stays taken. -/
def read (s : Schema ι Empty) : Reader Value := do
  s.readWith defs.layout (defs.readRef ((← Reader.remaining) + 1))

/-- The value at the start of a buffer in the given scheme. -/
def decodeFull (scheme : Scheme) (s : Schema ι Empty) (bytes : List UInt8) :
    Except DecodeError Value :=
  match defs.read s (.decoder scheme (.slice bytes)) with
  | .ok v _ => .ok v
  | .error e _ => .error e

end Definitions

end Scale
