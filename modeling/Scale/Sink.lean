import Scale.Error
import Scale.Scheme

namespace Scale

/-- A write-only byte stream. -/
inductive Sink where
  /-- A growable array of bytes. -/
  | buffer (bytes : Array UInt8)
  /-- A growable segment of shared memory. -/
  | segment (bytes : Array UInt8)
  /-- A tally that forgets the bytes and keeps their number. -/
  | counter (scheme : Scheme) (count : Nat)
  /-- Another sink, lent out. -/
  | borrowed (inner : Sink)
  /-- Another sink, written with a compact scheme of choice. -/
  | encoder (scheme : Scheme) (inner : Sink)
  deriving DecidableEq, Repr, Inhabited

namespace Sink

/-- The compact scheme of the stream: that of the outermost encoder, else the counter's own, and
    the classic one for bare memory. -/
def scheme : Sink → Scheme
  | buffer _ => .classic
  | segment _ => .classic
  | counter scheme _ => scheme
  | borrowed inner => inner.scheme
  | encoder scheme _ => scheme

/-- The number of bytes written so far. -/
def size : Sink → Nat
  | buffer bytes => bytes.size
  | segment bytes => bytes.size
  | counter _ count => count
  | borrowed inner => inner.size
  | encoder _ inner => inner.size

/-- The bytes written so far, for sinks that keep them. -/
def contents? : Sink → Option (Array UInt8)
  | buffer bytes => some bytes
  | segment bytes => some bytes
  | counter _ _ => none
  | borrowed inner => inner.contents?
  | encoder _ inner => inner.contents?

/-- Adds one byte. -/
def push (byte : UInt8) : Sink → Sink
  | buffer bytes => buffer (bytes.push byte)
  | segment bytes => segment (bytes ++ [byte])
  | counter scheme count => counter scheme (count + 1)
  | borrowed inner => borrowed (inner.push byte)
  | encoder scheme inner => encoder scheme (inner.push byte)

/-- Adds a span of bytes. -/
def append (span : List UInt8) : Sink → Sink
  | buffer bytes => buffer (bytes ++ span)
  | segment bytes => segment (bytes ++ span)
  | counter scheme count => counter scheme (count + span.length)
  | borrowed inner => borrowed (inner.append span)
  | encoder scheme inner => encoder scheme (inner.append span)

/-- Takes off the outermost encoder. -/
def unwrap : Sink → Sink
  | encoder _ inner => inner
  | sink => sink

/-- Adding a byte is adding a span of one byte. -/
theorem push_eq_append (byte : UInt8) (sink : Sink) : sink.push byte = sink.append [byte] := by
  induction sink with
  | buffer bytes => simp [push, append]
  | segment _ => rfl
  | counter _ _ => rfl
  | borrowed _ ih => exact congrArg borrowed ih
  | encoder scheme _ ih => exact congrArg (encoder scheme) ih

@[simp] theorem scheme_append (span : List UInt8) (sink : Sink) :
    (sink.append span).scheme = sink.scheme := by
  induction sink with
  | buffer _ => rfl
  | segment _ => rfl
  | counter _ _ => rfl
  | borrowed _ ih => exact ih
  | encoder _ _ _ => rfl

@[simp] theorem size_append (span : List UInt8) (sink : Sink) :
    (sink.append span).size = sink.size + span.length := by
  induction sink with
  | buffer _ => simp [append, size, ← Array.length_toList]
  | segment _ => simp [append, size, ← Array.length_toList]
  | counter _ _ => rfl
  | borrowed _ ih => exact ih
  | encoder _ _ ih => exact ih

@[simp] theorem contents?_append (span : List UInt8) (sink : Sink) :
    (sink.append span).contents? = sink.contents?.map fun (bytes : Array UInt8) => bytes ++ span := by
  induction sink with
  | buffer _ => rfl
  | segment _ => rfl
  | counter _ _ => rfl
  | borrowed _ ih => exact ih
  | encoder _ _ ih => exact ih

@[simp] theorem append_nil (sink : Sink) : sink.append [] = sink := by
  induction sink with
  | buffer bytes => exact congrArg buffer (Array.ext' (by simp))
  | segment bytes => exact congrArg segment (Array.ext' (by simp))
  | counter _ _ => rfl
  | borrowed _ ih => exact congrArg borrowed ih
  | encoder scheme _ ih => exact congrArg (encoder scheme) ih

@[simp] theorem append_append (first second : List UInt8) (sink : Sink) :
    (sink.append first).append second = sink.append (first ++ second) := by
  induction sink with
  | buffer bytes => exact congrArg buffer (Array.ext' (by simp))
  | segment bytes => exact congrArg segment (Array.ext' (by simp))
  | counter _ _ => simp [append, Nat.add_assoc]
  | borrowed _ ih => exact congrArg borrowed ih
  | encoder scheme _ ih => exact congrArg (encoder scheme) ih

end Sink

/-- A writing step on a sink. -/
abbrev Writer := EStateM EncodeError Sink

namespace Writer

/-- The compact scheme of the sink. -/
def scheme : Writer Scheme :=
  return (← get).scheme

/-- Writes one byte. -/
def putByte (byte : UInt8) : Writer Unit :=
  modify (Sink.push byte)

/-- Writes a span of bytes. -/
def putSpan (span : List UInt8) : Writer Unit :=
  modify (Sink.append span)

/-- Writes the tag of an alternative, a single byte. -/
def putTag (index : UInt8) : Writer Unit :=
  putByte index

/-- Runs a step with the sink wrapped in an encoder of the given scheme. -/
def withScheme {α : Type} (scheme : Scheme) (step : Writer α) : Writer α := fun sink =>
  match step (.encoder scheme sink) with
  | .ok a sink => .ok a sink.unwrap
  | .error e sink => .error e sink.unwrap

end Writer

end Scale
