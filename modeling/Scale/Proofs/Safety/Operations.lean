import Scale.Power
import Scale.Proofs.Step
import Scale.Sink
import Scale.Source

namespace Scale.Checked

/-- What comes of an operation outside its domain. -/
inductive Fault where
  /-- An index or a range goes past the end of a buffer. -/
  | outOfRange
  /-- A buffer is filled from one of another length. -/
  | lengthsDiffer
  /-- A difference is below zero. -/
  | underflow
  /-- A sum or a product does not fit into its word. -/
  | overflow
  /-- A word is shifted by its width or more. -/
  | overlongShift
  /-- A bit of a value does not fit into the word that the value is moved to. -/
  | lostBit
  | divisionByZero
  /-- A place is reached that is taken to be unreachable, or an assertion does not hold. -/
  | unreachable
  deriving DecidableEq, Repr

/-- Why a checked step ends without a result: it refuses what it is given, or it is at fault. -/
inductive Halt (ε : Type) where
  | refused (e : ε)
  | fault (f : Fault)
  deriving DecidableEq, Repr

@[simp] theorem ok_bind {α β : Type} (a : α) (next : α → Except Fault β) :
    (Except.ok a >>= next) = next a :=
  rfl

/-- An assertion. -/
def assert (p : Prop) [Decidable p] : Except Fault Unit :=
  if p then .ok () else .error .unreachable

theorem assert_of {p : Prop} [Decidable p] (hp : p) : assert p = .ok () :=
  if_pos hp

namespace Word

/-- The sum of two words of a width. -/
def add (width a b : Nat) : Except Fault Nat :=
  if a + b < 2 ^ width then .ok (a + b) else .error .overflow

/-- The product of two words of a width. -/
def mul (width a b : Nat) : Except Fault Nat :=
  if a * b < 2 ^ width then .ok (a * b) else .error .overflow

def sub (a b : Nat) : Except Fault Nat :=
  if b ≤ a then .ok (a - b) else .error .underflow

def div (a b : Nat) : Except Fault Nat :=
  if b ≠ 0 then .ok (a / b) else .error .divisionByZero

/-- A word of a width, shifted up. No bit of it may leave the word. -/
def shiftLeft (width a amount : Nat) : Except Fault Nat :=
  if amount < width then
    if a * 2 ^ amount < 2 ^ width then .ok (a * 2 ^ amount) else .error .lostBit
  else
    .error .overlongShift

/-- A word of a width, shifted down. -/
def shiftRight (width a amount : Nat) : Except Fault Nat :=
  if amount < width then .ok (a / 2 ^ amount) else .error .overlongShift

/-- A word, moved to one of the given width as it is. -/
def narrow (width a : Nat) : Except Fault Nat :=
  if a < 2 ^ width then .ok a else .error .lostBit

/-- The part of a word that is left in one of the given width. -/
def wrap (width a : Nat) : Nat :=
  a % 2 ^ width

variable {width a b amount : Nat}

theorem add_of_lt (hlt : a + b < 2 ^ width) : add width a b = .ok (a + b) :=
  if_pos hlt

theorem mul_of_lt (hlt : a * b < 2 ^ width) : mul width a b = .ok (a * b) :=
  if_pos hlt

theorem sub_of_le (hle : b ≤ a) : sub a b = .ok (a - b) :=
  if_pos hle

theorem div_of_ne (hne : b ≠ 0) : div a b = .ok (a / b) :=
  if_pos hne

theorem shiftLeft_of_lt (hamount : amount < width) (hlt : a * 2 ^ amount < 2 ^ width) :
    shiftLeft width a amount = .ok (a * 2 ^ amount) :=
  (if_pos hamount).trans (if_pos hlt)

theorem shiftRight_of_lt (hamount : amount < width) :
    shiftRight width a amount = .ok (a / 2 ^ amount) :=
  if_pos hamount

theorem narrow_of_lt (hlt : a < 2 ^ width) : narrow width a = .ok a :=
  if_pos hlt

/-- The bits below a shifted word are free. -/
theorem shifted_or {k : Nat} (hlt : k < 2 ^ amount) :
    a * 2 ^ amount ||| k = 2 ^ amount * a + k := by
  rw [Nat.mul_comm, Nat.two_pow_add_eq_or_of_lt hlt]

end Word

namespace Buffer

variable {α : Type}

/-- The item at an index. -/
def get (xs : List α) (i : Nat) : Except Fault α :=
  match xs[i]? with
  | some x => .ok x
  | none => .error .outOfRange

/-- The first `n` items. -/
def upTo (xs : List α) (n : Nat) : Except Fault (List α) :=
  if n ≤ xs.length then .ok (xs.take n) else .error .outOfRange

/-- The first `n` items and the others. -/
def splitAt (xs : List α) (n : Nat) : Except Fault (List α × List α) :=
  if n ≤ xs.length then .ok (xs.take n, xs.drop n) else .error .outOfRange

/-- A buffer, filled with the given items. -/
def fill (buffer xs : List α) : Except Fault (List α) :=
  if buffer.length = xs.length then .ok xs else .error .lengthsDiffer

/-- A buffer with its first `n` items filled with the given ones. -/
def fillUpTo (buffer : List α) (n : Nat) (xs : List α) : Except Fault (List α) := do
  let front ← upTo buffer n
  let filled ← fill front xs
  return filled ++ buffer.drop n

variable {xs buffer : List α} {n : Nat}

theorem get_of_getElem? {x : α} (hget : xs[n]? = some x) : get xs n = .ok x := by
  rw [get, hget]

theorem upTo_of_le (hle : n ≤ xs.length) : upTo xs n = .ok (xs.take n) :=
  if_pos hle

theorem splitAt_of_le (hle : n ≤ xs.length) : splitAt xs n = .ok (xs.take n, xs.drop n) :=
  if_pos hle

theorem fill_of_length (hlength : buffer.length = xs.length) : fill buffer xs = .ok xs :=
  if_pos hlength

theorem fillUpTo_of_le (hlength : xs.length = n) (hle : n ≤ buffer.length) :
    fillUpTo buffer n xs = .ok (xs ++ buffer.drop n) := by
  have hfront : (buffer.take n).length = xs.length := by
    rw [List.length_take_of_le hle, hlength]
  rw [fillUpTo, upTo_of_le hle, ok_bind, fill_of_length hfront]
  rfl

/-- The items at the first indices, one by one. -/
theorem mapM_get (hle : n ≤ xs.length) :
    (List.range n).mapM (get xs) = .ok (xs.take n) := by
  induction n with
  | zero => rfl
  | succ n ih =>
    have hget : xs[n]? = some xs[n] := List.getElem?_eq_getElem (Nat.lt_of_succ_le hle)
    rw [List.range_succ, List.mapM_append, ih (Nat.le_of_succ_le hle), List.take_add_one, hget, ok_bind,
      List.mapM_cons, get_of_getElem? hget]
    rfl

theorem mapM_get_all (hlength : xs.length = n) :
    (List.range n).mapM (get xs) = .ok xs := by
  rw [mapM_get (Nat.le_of_eq hlength.symm), List.take_of_length_le (Nat.le_of_eq hlength)]

end Buffer

section

variable {ε σ α β : Type}

/-- A plain step as a checked one. It is never at fault. -/
def lift (step : EStateM ε σ α) : EStateM (Halt ε) σ α := fun s =>
  match step s with
  | .ok a t => .ok a t
  | .error e t => .error (.refused e) t

/-- An operation within a step. -/
def check (result : Except Fault α) : EStateM (Halt ε) σ α :=
  match result with
  | .ok a => pure a
  | .error f => throw (.fault f)

/-- A checked step ends with a result or refuses what it is given. -/
def Answers (step : EStateM (Halt ε) σ α) : Prop :=
  ∀ s, (∃ a t, step s = .ok a t) ∨ ∃ e t, step s = .error (.refused e) t

@[simp] theorem check_ok (a : α) : (check (.ok a) : EStateM (Halt ε) σ α) = pure a :=
  rfl

@[simp] theorem lift_pure (a : α) : lift (pure a : EStateM ε σ α) = pure a :=
  rfl

@[simp] theorem lift_throw (e : ε) : lift (throw e : EStateM ε σ α) = throw (.refused e) :=
  rfl

theorem lift_bind (step : EStateM ε σ α) (next : α → EStateM ε σ β) :
    lift (step >>= next) = lift step >>= fun a => lift (next a) := by
  funext s
  cases hstep : step s with
  | ok a t =>
    have hlift : lift step s = .ok a t := by rw [lift, hstep]
    rw [Step.bind_of_ok hlift, lift, lift, Step.bind_of_ok hstep]
  | error e t =>
    have hlift : lift step s = .error (.refused e) t := by rw [lift, hstep]
    rw [Step.bind_of_error hlift, lift, Step.bind_of_error hstep]

/-- One plain step after the other. -/
theorem lift_seq {first : EStateM ε σ α} {second : EStateM ε σ β} {second' : EStateM (Halt ε) σ β}
    (hsecond : second' = lift second) :
    (lift first >>= fun _ => second') = lift (first >>= fun _ => second) := by
  rw [hsecond, lift_bind]

/-- A plain step that ends with a function of its value. -/
theorem lift_map (step : EStateM ε σ α) (f : α → β) :
    (lift step >>= fun a => pure (f a)) = lift (step >>= fun a => pure (f a)) :=
  (lift_bind step fun a => pure (f a)).symm

theorem lift_ite {p : Prop} [Decidable p] (step step' : EStateM ε σ α) :
    lift (if p then step else step') = if p then lift step else lift step' := by
  split <;> rfl

/-- What follows a plain step may rely on what the step has found out. -/
theorem lift_bind_congr {step : EStateM ε σ α} {next : α → EStateM ε σ β}
    {next' : α → EStateM (Halt ε) σ β}
    (hnext : ∀ {s a t}, step s = .ok a t → next' a = lift (next a)) :
    lift step >>= next' = lift (step >>= next) := by
  rw [lift_bind]
  refine Step.bind_congr_of_ok fun {s a t} hlift => ?_
  cases hstep : step s with
  | ok b u =>
    rw [lift, hstep] at hlift
    obtain ⟨rfl, rfl⟩ := EStateM.Result.ok.inj hlift
    rw [hnext hstep]
  | error e u =>
    rw [lift, hstep] at hlift
    cases hlift

theorem error_of_lift {step : EStateM ε σ α} {e : ε} {s t : σ}
    (hlift : lift step s = .error (.refused e) t) : step s = .error e t := by
  rw [lift] at hlift
  cases hstep : step s with
  | ok a u =>
    rw [hstep] at hlift
    cases hlift
  | error e' u =>
    rw [hstep] at hlift
    obtain ⟨hrefused, rfl⟩ := EStateM.Result.error.inj hlift
    rw [Halt.refused.inj hrefused]

theorem answers_lift (step : EStateM ε σ α) : Answers (lift step) := by
  intro s
  rw [lift]
  cases step s with
  | ok a t => exact .inl ⟨a, t, rfl⟩
  | error e t => exact .inr ⟨e, t, rfl⟩

end

/-- A checked reading step on a source. -/
abbrev Reading := EStateM (Halt DecodeError) Source

/-- A checked writing step on a sink. -/
abbrev Writing := EStateM (Halt EncodeError) Sink

end Scale.Checked
