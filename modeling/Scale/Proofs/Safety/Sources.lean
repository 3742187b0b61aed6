import Scale.Proofs.Safety.Operations

namespace Scale.Checked

namespace Source

/-- The next byte and the source after it. -/
def takeByte? : Source → Except Fault (Option (UInt8 × Source))
  | .slice [] => return none
  | .slice (byte :: rest) => return some (byte, .slice rest)
  | .shared bytes =>
    if bytes = [] then
      return none
    else do
      let byte ← Buffer.get bytes 0
      let (_, rest) ← Buffer.splitAt bytes 1
      return some (byte, .shared rest)
  | .borrowed inner => do
    match ← takeByte? inner with
    | some (byte, inner) => return some (byte, .borrowed inner)
    | none => return none
  | .decoder scheme inner => do
    match ← takeByte? inner with
    | some (byte, inner) => return some (byte, .decoder scheme inner)
    | none => return none

/-- A buffer filled with the next bytes, and the source after them. -/
def read? (out : List UInt8) : Source → Except Fault (Option (List UInt8 × Source))
  | .slice bytes =>
    if bytes.length < out.length then
      return none
    else do
      let (head, rest) ← Buffer.splitAt bytes out.length
      let span ← Buffer.fill out head
      return some (span, .slice rest)
  | .shared bytes =>
    if bytes.length < out.length then
      return none
    else do
      let head ← Buffer.upTo bytes out.length
      let span ← Buffer.fill out head
      let (_, rest) ← Buffer.splitAt bytes out.length
      return some (span, .shared rest)
  | .borrowed inner => do
    match ← read? out inner with
    | some (span, inner) => return some (span, .borrowed inner)
    | none => return none
  | .decoder scheme inner => do
    match ← read? out inner with
    | some (span, inner) => return some (span, .decoder scheme inner)
    | none => return none

/-- The next `amount` bytes as a span. A slice copies them into a new buffer, and shared memory is cut
    in two. -/
def readSpan? (amount : Nat) : Source → Except Fault (Option (List UInt8 × Source))
  | .slice bytes =>
    if (Scale.Source.slice bytes).has amount then
      read? (List.replicate amount 0) (.slice bytes)
    else
      return none
  | .shared bytes =>
    if amount ≤ bytes.length then do
      let (span, rest) ← Buffer.splitAt bytes amount
      return some (span, .shared rest)
    else
      return none
  | .borrowed inner => do
    match ← readSpan? amount inner with
    | some (span, inner) => return some (span, .borrowed inner)
    | none => return none
  | .decoder scheme inner => do
    match ← readSpan? amount inner with
    | some (span, inner) => return some (span, .decoder scheme inner)
    | none => return none

variable (source : Source)

theorem takeByte?_eq : takeByte? source = .ok source.takeByte? := by
  induction source with
  | slice bytes => cases bytes <;> rfl
  | shared bytes => cases bytes <;> rfl
  | borrowed inner ih =>
    rw [takeByte?, ih, Scale.Source.takeByte?]
    cases inner.takeByte? <;> rfl
  | decoder scheme inner ih =>
    rw [takeByte?, ih, Scale.Source.takeByte?]
    cases inner.takeByte? <;> rfl

theorem read?_eq (out : List UInt8) : read? out source = .ok (source.read? out.length) := by
  have hfill : ∀ {bytes : List UInt8}, out.length ≤ bytes.length →
      Buffer.fill out (bytes.take out.length) = .ok (bytes.take out.length) := fun hle =>
    Buffer.fill_of_length (List.length_take_of_le hle).symm
  induction source with
  | slice bytes =>
    rw [read?, Scale.Source.read?, splitExact?_eq]
    by_cases hle : out.length ≤ bytes.length
    · rw [if_neg (Nat.not_lt.2 hle), if_pos hle, Buffer.splitAt_of_le hle, ok_bind]
      dsimp only
      rw [hfill hle]
      rfl
    · rw [if_pos (Nat.not_le.1 hle), if_neg hle]
      rfl
  | shared bytes =>
    rw [read?, Scale.Source.read?, splitExact?_eq]
    by_cases hle : out.length ≤ bytes.length
    · rw [if_neg (Nat.not_lt.2 hle), if_pos hle, Buffer.upTo_of_le hle, ok_bind, hfill hle, ok_bind,
        Buffer.splitAt_of_le hle]
      rfl
    · rw [if_pos (Nat.not_le.1 hle), if_neg hle]
      rfl
  | borrowed inner ih =>
    rw [read?, ih, Scale.Source.read?]
    cases inner.read? out.length <;> rfl
  | decoder scheme inner ih =>
    rw [read?, ih, Scale.Source.read?]
    cases inner.read? out.length <;> rfl

theorem readSpan?_eq (amount : Nat) : readSpan? amount source = .ok (source.readSpan? amount) := by
  induction source with
  | slice bytes =>
    rw [readSpan?, Scale.Source.readSpan?, read?_eq, List.length_replicate]
    split <;> rfl
  | shared bytes =>
    rw [readSpan?, Scale.Source.readSpan?]
    split
    · rw [Buffer.splitAt_of_le ‹_›]
      rfl
    · rfl
  | borrowed inner ih =>
    rw [readSpan?, ih, Scale.Source.readSpan?]
    cases inner.readSpan? amount <;> rfl
  | decoder scheme inner ih =>
    rw [readSpan?, ih, Scale.Source.readSpan?]
    cases inner.readSpan? amount <;> rfl

end Source

/-- Turns a way to take something off the source into a step. -/
def ofTake {α : Type} (take : Source → Except Fault (Option (α × Source))) : Reading α := fun source =>
  match take source with
  | .ok (some (a, rest)) => .ok a rest
  | .ok none => .error (.refused .notEnoughData) source
  | .error f => .error (.fault f) source

theorem ofTake_eq {α : Type} {take' : Source → Except Fault (Option (α × Source))}
    {take : Source → Option (α × Source)} (htake : ∀ source, take' source = .ok (take source)) :
    ofTake take' = lift (Reader.ofTake take) := by
  funext source
  rw [ofTake, htake, lift, Reader.ofTake]
  cases take source <;> rfl

def takeByte : Reading UInt8 :=
  ofTake Source.takeByte?

/-- Fills a buffer. -/
def readInto (out : List UInt8) : Reading (List UInt8) :=
  ofTake (Source.read? out)

def readSpan (amount : Nat) : Reading (List UInt8) :=
  ofTake (Source.readSpan? amount)

theorem takeByte_eq : takeByte = lift Reader.takeByte :=
  ofTake_eq Source.takeByte?_eq

theorem readInto_eq (out : List UInt8) : readInto out = lift (Reader.read out.length) :=
  ofTake_eq fun source => Source.read?_eq source out

theorem readSpan_eq (amount : Nat) : readSpan amount = lift (Reader.readSpan amount) :=
  ofTake_eq fun source => Source.readSpan?_eq source amount

end Scale.Checked
