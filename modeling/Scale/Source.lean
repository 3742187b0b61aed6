import Scale.Error
import Scale.Scheme

namespace Scale

/-- The first `n` items and the rest, provided there are that many. -/
def splitExact? {α : Type} : Nat → List α → Option (List α × List α)
  | 0, xs => some ([], xs)
  | _ + 1, [] => none
  | n + 1, x :: xs =>
    match splitExact? n xs with
    | some (taken, rest) => some (x :: taken, rest)
    | none => none

theorem splitExact?_eq {α : Type} (n : Nat) (xs : List α) :
    splitExact? n xs = if n ≤ xs.length then some (xs.take n, xs.drop n) else none := by
  induction n generalizing xs with
  | zero => simp [splitExact?]
  | succ n ih =>
    cases xs with
    | nil => simp [splitExact?]
    | cons x xs =>
      rw [splitExact?, ih]
      by_cases h : n ≤ xs.length <;> simp [h]

/-- A read-only byte stream. It never grows. -/
inductive Source where
  /-- A borrowed slice, whose spans are copied out. -/
  | slice (bytes : List UInt8)
  /-- Shared memory, whose spans are split off. -/
  | shared (bytes : List UInt8)
  /-- Another source, lent out. -/
  | borrowed (inner : Source)
  /-- Another source, read with a compact scheme of choice. -/
  | decoder (scheme : Scheme) (inner : Source)
  deriving DecidableEq, Repr, Inhabited

namespace Source

/-- The compact scheme of the stream: that of the outermost decoder, else the classic one. -/
def scheme : Source → Scheme
  | slice _ => .classic
  | shared _ => .classic
  | borrowed inner => inner.scheme
  | decoder scheme _ => scheme

/-- The bytes not taken yet. -/
def bytes : Source → List UInt8
  | slice bytes => bytes
  | shared bytes => bytes
  | borrowed inner => inner.bytes
  | decoder _ inner => inner.bytes

/-- The number of bytes left. -/
def remaining : Source → Nat
  | slice bytes => bytes.length
  | shared bytes => bytes.length
  | borrowed inner => inner.remaining
  | decoder _ inner => inner.remaining

/-- Whether at least `amount` bytes are left. -/
def has (amount : Nat) (source : Source) : Bool :=
  amount ≤ source.remaining

/-- The next byte and the source after it. -/
def takeByte? : Source → Option (UInt8 × Source)
  | slice [] => none
  | slice (byte :: rest) => some (byte, slice rest)
  | shared [] => none
  | shared (byte :: rest) => some (byte, shared rest)
  | borrowed inner =>
    match inner.takeByte? with
    | some (byte, inner) => some (byte, borrowed inner)
    | none => none
  | decoder scheme inner =>
    match inner.takeByte? with
    | some (byte, inner) => some (byte, decoder scheme inner)
    | none => none

/-- The next `amount` bytes, copied out, and the source after them. -/
def read? (amount : Nat) : Source → Option (List UInt8 × Source)
  | slice bytes =>
    match splitExact? amount bytes with
    | some (span, rest) => some (span, slice rest)
    | none => none
  | shared bytes =>
    match splitExact? amount bytes with
    | some (span, rest) => some (span, shared rest)
    | none => none
  | borrowed inner =>
    match inner.read? amount with
    | some (span, inner) => some (span, borrowed inner)
    | none => none
  | decoder scheme inner =>
    match inner.read? amount with
    | some (span, inner) => some (span, decoder scheme inner)
    | none => none

/-- The next `amount` bytes as a span. A slice makes sure that they are there and copies them;
    shared memory is cut in two. -/
def readSpan? (amount : Nat) : Source → Option (List UInt8 × Source)
  | slice bytes =>
    if (slice bytes).has amount then (slice bytes).read? amount else none
  | shared bytes =>
    if amount ≤ bytes.length then some (bytes.take amount, shared (bytes.drop amount)) else none
  | borrowed inner =>
    match inner.readSpan? amount with
    | some (span, inner) => some (span, borrowed inner)
    | none => none
  | decoder scheme inner =>
    match inner.readSpan? amount with
    | some (span, inner) => some (span, decoder scheme inner)
    | none => none

/-- Takes off the outermost adapter. -/
def unwrap : Source → Source
  | borrowed inner => inner
  | decoder _ inner => inner
  | source => source

/-- The same source with other bytes left. -/
def withBytes (rest : List UInt8) : Source → Source
  | slice _ => slice rest
  | shared _ => shared rest
  | borrowed inner => borrowed (inner.withBytes rest)
  | decoder scheme inner => decoder scheme (inner.withBytes rest)

@[simp] theorem bytes_withBytes (rest : List UInt8) (source : Source) :
    (source.withBytes rest).bytes = rest := by
  induction source with
  | slice _ => rfl
  | shared _ => rfl
  | borrowed _ ih => exact ih
  | decoder _ _ ih => exact ih

@[simp] theorem scheme_withBytes (rest : List UInt8) (source : Source) :
    (source.withBytes rest).scheme = source.scheme := by
  induction source with
  | slice _ => rfl
  | shared _ => rfl
  | borrowed _ ih => exact ih
  | decoder _ _ _ => rfl

@[simp] theorem withBytes_bytes (source : Source) : source.withBytes source.bytes = source := by
  induction source with
  | slice _ => rfl
  | shared _ => rfl
  | borrowed _ ih => exact congrArg borrowed ih
  | decoder scheme _ ih => exact congrArg (decoder scheme) ih

@[simp] theorem withBytes_withBytes (first second : List UInt8) (source : Source) :
    (source.withBytes first).withBytes second = source.withBytes second := by
  induction source with
  | slice _ => rfl
  | shared _ => rfl
  | borrowed _ ih => exact congrArg borrowed ih
  | decoder scheme _ ih => exact congrArg (decoder scheme) ih

/-- The number of bytes left is that of the bytes left. -/
theorem remaining_eq (source : Source) : source.remaining = source.bytes.length := by
  induction source with
  | slice _ => rfl
  | shared _ => rfl
  | borrowed _ ih => exact ih
  | decoder _ _ ih => exact ih

/-- The next byte is the first one left, whatever the adapters. -/
theorem takeByte?_eq (source : Source) :
    source.takeByte? =
      match source.bytes with
      | [] => none
      | byte :: rest => some (byte, source.withBytes rest) := by
  induction source with
  | slice bytes => cases bytes <;> rfl
  | shared bytes => cases bytes <;> rfl
  | borrowed inner ih =>
    rw [takeByte?, ih, bytes]
    cases inner.bytes <;> rfl
  | decoder scheme inner ih =>
    rw [takeByte?, ih, bytes]
    cases inner.bytes <;> rfl

/-- Bytes are read off the front of those left, whatever the adapters. -/
theorem read?_eq (amount : Nat) (source : Source) :
    source.read? amount =
      if amount ≤ source.bytes.length then
        some (source.bytes.take amount, source.withBytes (source.bytes.drop amount))
      else
        none := by
  induction source with
  | slice bytes =>
    by_cases h : amount ≤ bytes.length <;>
      simp [read?, splitExact?_eq, Source.bytes, withBytes, h]
  | shared bytes =>
    by_cases h : amount ≤ bytes.length <;>
      simp [read?, splitExact?_eq, Source.bytes, withBytes, h]
  | borrowed inner ih =>
    by_cases h : amount ≤ inner.bytes.length <;> simp [read?, ih, Source.bytes, withBytes, h]
  | decoder scheme inner ih =>
    by_cases h : amount ≤ inner.bytes.length <;> simp [read?, ih, Source.bytes, withBytes, h]

/-- A span is what reading the same bytes gives, whether it is copied or split off. -/
theorem readSpan?_eq_read? (amount : Nat) (source : Source) :
    source.readSpan? amount = source.read? amount := by
  induction source with
  | slice bytes =>
    rw [readSpan?, has, remaining_eq, read?_eq]
    by_cases h : amount ≤ (slice bytes).bytes.length <;> simp [h]
  | shared bytes => rw [readSpan?, read?_eq, Source.bytes, withBytes]
  | borrowed inner ih => rw [readSpan?, read?, ih]
  | decoder scheme inner ih => rw [readSpan?, read?, ih]

end Source

/-- A reading step on a source. -/
abbrev Reader := EStateM DecodeError Source

namespace Reader

/-- The compact scheme of the source. -/
def scheme : Reader Scheme :=
  return (← get).scheme

/-- The number of bytes left. -/
def remaining : Reader Nat :=
  return (← get).remaining

/-- Whether at least `amount` bytes are left. -/
def has (amount : Nat) : Reader Bool :=
  return (← get).has amount

/-- Turns a way to take something off the source into a step that fails for lack of data. -/
def ofTake {α : Type} (take : Source → Option (α × Source)) : Reader α := fun source =>
  match take source with
  | some (a, rest) => .ok a rest
  | none => .error .notEnoughData source

/-- Takes the next byte. -/
def takeByte : Reader UInt8 :=
  ofTake Source.takeByte?

/-- Takes the next `amount` bytes. -/
def read (amount : Nat) : Reader (List UInt8) :=
  ofTake (Source.read? amount)

/-- Takes the next `amount` bytes as a span. -/
def readSpan (amount : Nat) : Reader (List UInt8) :=
  ofTake (Source.readSpan? amount)

/-- Takes a tag, which has to be below the number of alternatives. -/
def takeTag (alternatives : Nat) : Reader Nat := do
  let tag ← takeByte
  if tag.toNat < alternatives then
    return tag.toNat
  else
    throw .wrongTypeIndex

/-- Runs a step through an adapter put around the source. -/
def through {α : Type} (adapter : Source → Source) (step : Reader α) : Reader α := fun source =>
  match step (adapter source) with
  | .ok a rest => .ok a rest.unwrap
  | .error e rest => .error e rest.unwrap

/-- Runs a step with the source wrapped in a decoder of the given scheme. -/
def withScheme {α : Type} (scheme : Scheme) (step : Reader α) : Reader α :=
  through (.decoder scheme) step

end Reader

end Scale
