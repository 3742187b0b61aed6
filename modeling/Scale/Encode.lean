import Scale.BitSeq.Codec
import Scale.Definitions
import Scale.Value.Basic

namespace Scale

/-- Writes a truth value, 0 or 1. -/
def Writer.putBool (b : Bool) : Writer Unit :=
  putByte (if b then 1 else 0)

/-- Writes an optional truth value in one byte: 0 for none, 1 for true and 2 for false. -/
def Writer.putPacked : Value → Writer Unit
  | .absent => putByte 0
  | .present (.bool true) => putByte 1
  | .present (.bool false) => putByte 2
  | _ => throw .illTyped

namespace Schema

variable {ι ω : Type}

mutual

/-- Writes a value of a schema, with `self` to write the recursive types. -/
def writeWith (self : ι → Value → Writer Unit) : Schema ι ω → Value → Writer Unit
  | unit => fun _ => return ()
  | bool => fun
    | .bool b => Writer.putBool b
    | _ => throw .illTyped
  | int t => fun
    | .int n => t.put n
    | _ => throw .illTyped
  | wide width => fun
    | .int n => Writer.putSpan (littleEndian width n.toNat)
    | _ => throw .illTyped
  | compact _ => fun
    | .int n => Writer.putCompact n
    | _ => throw .illTyped
  | text => fun
    | .text s => Writer.putCountedSpan s.toUTF8.data.toList
    | _ => throw .illTyped
  | blob => fun
    | .blob bytes => Writer.putCountedSpan bytes
    | _ => throw .illTyped
  | bits => fun
    | .bits b => b.put
    | _ => throw .illTyped
  | option content => fun v =>
    if content.isBool then
      Writer.putPacked v
    else
      match v with
      | .absent => Writer.putByte 0
      | .present w => do
        Writer.putByte 1
        writeWith self content w
      | _ => throw .illTyped
  | result success failure => fun
    | .tagged 0 v => do
      Writer.putTag 0
      writeWith self success v
    | .tagged 1 v => do
      Writer.putTag 1
      writeWith self failure v
    | _ => throw .illTyped
  | sequence _ item => fun
    | .list vs => Writer.putCounted (writeWith self item) vs
    | _ => throw .illTyped
  | set _ item => fun
    | .list vs => Writer.putCounted (writeWith self item) vs
    | _ => throw .illTyped
  | map _ key value => fun
    | .list entries =>
      Writer.putCounted
        (fun
          | .list [k, v] => do
            writeWith self key k
            writeWith self value v
          | _ => throw .illTyped)
        entries
    | _ => throw .illTyped
  | array _ item => fun
    | .list vs => vs.forM (writeWith self item)
    | _ => throw .illTyped
  | tuple items => fun
    | .list vs => writeAll self items vs
    | _ => throw .illTyped
  | pointer pointee => writeWith self pointee
  | weak _ pointee => fun
    | .dangling => throw .danglingPointer
    | v => writeWith self pointee v
  | encoded _ => fun
    | .blob bytes => Writer.putSpan bytes
    | _ => throw .illTyped
  | record _ selection fields => fun
    | .list vs => selection.order.forM fun i => writeAt self fields vs i
    | _ => throw .illTyped
  | sum _ alternatives => fun
    | .tagged i v =>
      if i < alternatives.length then do
        Writer.putTag (UInt8.ofNat i)
        writeNth self alternatives i v
      else
        throw .illTyped
    | _ => throw .illTyped
  | enumeration e => fun
    | .tagged i _ => e.coding.put i
    | _ => throw .illTyped
  | range r => fun
    | .int n => r.coding.put n
    | _ => throw .illTyped
  | ref name => self name

/-- Writes one value after the other, each with the schema at its place. -/
def writeAll (self : ι → Value → Writer Unit) : List (Schema ι ω) → List Value → Writer Unit
  | [], [] => return ()
  | s :: ss, v :: vs => do
    writeWith self s v
    writeAll self ss vs
  | _, _ => throw .illTyped

/-- Writes the value at an index with the schema at that index. -/
def writeAt (self : ι → Value → Writer Unit) :
    List (Schema ι ω) → List Value → Nat → Writer Unit
  | s :: _, v :: _, 0 => writeWith self s v
  | _ :: ss, _ :: vs, i + 1 => writeAt self ss vs i
  | _, _, _ => throw .illTyped

/-- Writes a value with the schema at an index. -/
def writeNth (self : ι → Value → Writer Unit) :
    List (Schema ι ω) → Nat → Value → Writer Unit
  | [], _, _ => throw .illTyped
  | s :: _, 0, v => writeWith self s v
  | _ :: ss, i + 1, v => writeNth self ss i v

end

end Schema

namespace Definitions

variable {ι ω : Type} (defs : Definitions ι ω)

/-- Writes a value of a recursive type that is nested no deeper than `depth`. -/
def writeRef : Nat → ι → Value → Writer Unit
  | 0, _, _ => throw .illTyped
  | depth + 1, name, v => (defs.body name).writeWith (writeRef depth) v

/-- Writes a value into the sink. What was written before a failure stays there. The value is trusted
    to be of its type: the ranges of integers, the lengths of arrays and the order of keys are not
    looked at again. -/
def write (s : Schema ι ω) (v : Value) : Writer Unit :=
  s.writeWith (defs.writeRef v.depth) v

/-- The bytes of a value in the given scheme. -/
def encodeFull (scheme : Scheme) (s : Schema ι ω) (v : Value) :
    Except EncodeError (Array UInt8) :=
  match defs.write s v (.encoder scheme (.buffer #[])) with
  | .ok _ sink => .ok (sink.contents?.getD #[])
  | .error e _ => .error e

/-- The number of bytes of a value in the given scheme, found without keeping them. -/
def encodedSize (scheme : Scheme) (s : Schema ι ω) (v : Value) : Except EncodeError Nat :=
  match defs.write s v (.counter scheme 0) with
  | .ok _ sink => .ok sink.size
  | .error e _ => .error e

/-- Writes a value into the sink, or nothing when that fails. -/
def encode (s : Schema ι ω) (v : Value) : Writer Unit := do
  let scheme ← Writer.scheme
  let staged ← MonadExcept.ofExcept (defs.encodeFull scheme s v)
  Writer.putSpan staged.toList

/-- The value as an item that is encoded already. The classic scheme is used, whatever stream the
    item is put into later. -/
def encodedItem (s : Schema ι ω) (v : Value) : Except EncodeError Value := do
  let bytes ← defs.encodeFull .classic s v
  return .blob bytes.toList

end Definitions

end Scale
