import Scale.Proofs.Reading.Prefix

namespace Scale

namespace Source

/-- The schemes of the decoders around a source, outermost first. -/
def decoders : Source → List Scheme
  | slice _ => []
  | shared _ => []
  | borrowed inner => inner.decoders
  | decoder scheme inner => scheme :: inner.decoders

/-- The outermost decoder decides. Without one the classic scheme is used. -/
theorem scheme_eq_headD (source : Source) : source.scheme = source.decoders.headD .classic := by
  induction source with
  | slice _ => rfl
  | shared _ => rfl
  | borrowed _ ih => exact ih
  | decoder _ _ _ => rfl

@[simp] theorem decoders_withBytes (rest : List UInt8) (source : Source) :
    (source.withBytes rest).decoders = source.decoders := by
  induction source with
  | slice _ => rfl
  | shared _ => rfl
  | borrowed _ ih => exact ih
  | decoder scheme _ ih => exact congrArg (List.cons scheme) ih

/-- What a source can be seen through. -/
inductive Adapter where
  /-- The source is lent out. -/
  | borrowed
  /-- The source is read with a compact scheme of choice. -/
  | decoder (scheme : Scheme)
  deriving DecidableEq, Repr

/-- Puts an adapter around a source. -/
def Adapter.around : Adapter → Source → Source
  | borrowed => .borrowed
  | decoder scheme => .decoder scheme

/-- Puts adapters around a source, outermost first. -/
def adapted (adapters : List Adapter) (source : Source) : Source :=
  adapters.foldr Adapter.around source

theorem bytes_adapted (adapters : List Adapter) (source : Source) :
    (source.adapted adapters).bytes = source.bytes := by
  induction adapters with
  | nil => rfl
  | cons adapter adapters ih => cases adapter <;> exact ih

theorem decoders_adapted_congr (adapters : List Adapter) {source other : Source}
    (hdecoders : source.decoders = other.decoders) :
    (source.adapted adapters).decoders = (other.adapted adapters).decoders := by
  induction adapters with
  | nil => exact hdecoders
  | cons adapter adapters ih =>
    cases adapter with
    | borrowed => exact ih
    | decoder scheme => exact congrArg (List.cons scheme) ih

theorem unwrap_withBytes_around (adapter : Adapter) (rest : List UInt8) (source : Source) :
    ((adapter.around source).withBytes rest).unwrap = source.withBytes rest := by
  cases adapter <;> rfl

end Source

namespace Reader

variable {α β : Type}

/-- The end of a step that leaves the given source behind. -/
def outcome : Except DecodeError α → Source → EStateM.Result DecodeError Source α
  | .ok a, source => .ok a source
  | .error e, source => .error e source

/-- How the step ends and what it leaves depend on the scheme of a source and its bytes only. What
    it leaves are the last of these bytes. -/
def Uniform (step : Reader α) : Prop :=
  ∀ (scheme : Scheme) (bytes : List UInt8), ∃ (result : Except DecodeError α) (rest : List UInt8),
    rest <:+ bytes ∧ ∀ source : Source, source.scheme = scheme → source.bytes = bytes →
      step source = outcome result (source.withBytes rest)

theorem Uniform.of_result {step : Reader α} (result : Scheme → Except DecodeError α)
    (hstep : ∀ source : Source, step source = outcome (result source.scheme) source) :
    Uniform step := by
  intro scheme bytes
  refine ⟨result scheme, bytes, List.suffix_refl bytes, ?_⟩
  rintro source rfl rfl
  rw [hstep, Source.withBytes_bytes]

theorem Uniform.bind {step : Reader α} {next : α → Reader β} (hstep : Uniform step)
    (hnext : ∀ a, Uniform (next a)) : Uniform (step >>= next) := by
  intro scheme bytes
  obtain ⟨result, middle, hmiddle, hrun⟩ := hstep scheme bytes
  cases result with
  | error e =>
    exact ⟨.error e, middle, hmiddle, fun source hscheme hbytes =>
      Step.bind_of_error (hrun source hscheme hbytes)⟩
  | ok a =>
    obtain ⟨final, rest, hrest, hmore⟩ := hnext a scheme middle
    refine ⟨final, rest, hrest.trans hmiddle, fun source hscheme hbytes => ?_⟩
    rw [Step.bind_of_ok (hrun source hscheme hbytes),
      hmore _ (by rw [Source.scheme_withBytes, hscheme]) (Source.bytes_withBytes _ _),
      Source.withBytes_withBytes]

theorem Uniform.of_demands {step : Reader α} {amount used : Nat} {value : List UInt8 → α}
    (hstep : Demands step amount used value) : Uniform step := by
  intro scheme bytes
  by_cases hle : amount ≤ bytes.length
  · refine ⟨.ok (value (bytes.take used)), bytes.drop used, List.drop_suffix used bytes, ?_⟩
    rintro source _ rfl
    exact hstep.ok hle
  · refine ⟨.error .notEnoughData, bytes, List.suffix_refl bytes, ?_⟩
    rintro source _ rfl
    rw [Source.withBytes_bytes]
    exact hstep.error (Nat.not_le.1 hle)

theorem uniform_congruence : Congruence fun {_} step _ => Uniform step where
  pure a := Uniform.of_result (fun _ => .ok a) fun _ => rfl
  throw e := Uniform.of_result (fun _ => .error e) fun _ => rfl
  bind := Uniform.bind
  takeByte := Uniform.of_demands demands_takeByte
  read amount := Uniform.of_demands (demands_read amount)
  need amount := Uniform.of_demands (demands_need amount)
  scheme := Uniform.of_result .ok fun _ => rfl

theorem Uniform.readWith {ι : Type} {named : ι → Layout} {self : ι → Reader Value}
    (hself : ∀ name, Uniform (self name)) (s : Schema ι Empty) : Uniform (s.readWith named self) :=
  @Congruence.readWith _ uniform_congruence ι named self self hself s

/-- Runs a step with adapters put around the source, outermost first, and takes them off again. -/
def throughAll (adapters : List Source.Adapter) (step : Reader α) : Reader α :=
  adapters.foldl (fun step adapter => step.through adapter.around) step

/-- A step that is run through adapters ends as it does on the source with the adapters. -/
theorem throughAll_eq {adapters : List Source.Adapter} {step : Reader α} {P : Source → Prop}
    {result : Except DecodeError α} {rest : List UInt8}
    (hstep : ∀ source, P source → step source = outcome result (source.withBytes rest))
    (source : Source) (hsource : P (source.adapted adapters)) :
    step.throughAll adapters source = outcome result (source.withBytes rest) := by
  induction adapters generalizing step P with
  | nil => exact hstep source hsource
  | cons adapter adapters ih =>
    -- The outermost adapter belongs to the step, and the others are put around the source.
    have hthrough : ∀ source, P (adapter.around source) →
        step.through adapter.around source = outcome result (source.withBytes rest) := by
      intro source hadapted
      rw [through, hstep _ hadapted, ← source.unwrap_withBytes_around adapter rest]
      cases result <;> rfl
    exact ih (P := fun source => P (adapter.around source)) hthrough hsource

/-- How a step ends, and the source that it leaves behind. -/
def attempt (step : Reader α) (source : Source) : Except DecodeError α × Source :=
  match step source with
  | .ok a rest => (.ok a, rest)
  | .error e rest => (.error e, rest)

theorem attempt_of_outcome {step : Reader α} {source rest : Source}
    {result : Except DecodeError α} (hrun : step source = outcome result rest) :
    attempt step source = (result, rest) := by
  rw [attempt, hrun]
  cases result <;> rfl

end Reader

namespace Definitions

open Reader

variable {ι : Type} (defs : Definitions ι Empty)

theorem uniform_readRef (depth : Nat) (name : ι) : Uniform (defs.readRef depth name) := by
  induction depth generalizing name with
  | zero => exact uniform_congruence.throw .notEnoughData
  | succ depth ih => exact Uniform.readWith ih _

/-- What is read depends on the scheme and the bytes of a source only. -/
theorem uniform_read (s : Schema ι Empty) : Uniform (defs.read s) := by
  intro scheme bytes
  have hread : Uniform (s.readWith defs.layout (defs.readRef (bytes.length + 1))) :=
    Uniform.readWith (defs.uniform_readRef _) s
  obtain ⟨result, rest, hrest, hrun⟩ := hread scheme bytes
  refine ⟨result, rest, hrest, fun source hscheme hbytes => ?_⟩
  rw [read_apply, Source.remaining_eq, hbytes]
  exact hrun source hscheme hbytes

/-- A value that is asked of a source, through adapters that are put around it for this value only,
    outermost first. -/
structure Request (ι : Type) where
  adapters : List Source.Adapter
  schema : Schema ι Empty

/-- Reads the value that is asked for. -/
def answer (request : Request ι) : Reader Value :=
  (defs.read request.schema).throughAll request.adapters

/-- How it ends when values are asked of a source one after the other, and the bytes that are left
    each time. After a failure the next value is asked of what that has left. -/
def answers : List (Request ι) → Source → List (Except DecodeError Value × List UInt8)
  | [], _ => []
  | request :: requests, source =>
    let (result, after) := attempt (defs.answer request) source
    (result, after.bytes) :: answers requests after

/-- The scheme in which a value that is asked of a source is read: that of the outermost decoder
    around the source, or the classic one. -/
def Request.schemeOn (request : Request ι) (source : Source) : Scheme :=
  (source.adapted request.adapters).decoders.headD .classic

/-- The same value is asked of two sources, and it is read in the same scheme. -/
structure Request.Matches (first second : Source) (request other : Request ι) : Prop where
  schema_eq : request.schema = other.schema
  scheme_eq : request.schemeOn first = other.schemeOn second

theorem Request.schemeOn_withBytes (request : Request ι) (rest : List UInt8) (source : Source) :
    request.schemeOn (source.withBytes rest) = request.schemeOn source := by
  rw [schemeOn, schemeOn,
    Source.decoders_adapted_congr request.adapters (source.decoders_withBytes rest)]

theorem Request.Matches.withBytes {first second : Source} {request other : Request ι}
    (hmatch : Request.Matches first second request other) (rest rest' : List UInt8) :
    Request.Matches (first.withBytes rest) (second.withBytes rest') request other :=
  ⟨hmatch.schema_eq, by rw [schemeOn_withBytes, schemeOn_withBytes, hmatch.scheme_eq]⟩

/-- Two sources with the same bytes give the same answer when they are asked for the same value in
    the same scheme, and the same bytes are left of them. -/
theorem exists_attempt_answer {first second : Source} (hbytes : first.bytes = second.bytes)
    {request other : Request ι} (hmatch : Request.Matches first second request other) :
    ∃ result rest, rest <:+ first.bytes ∧
      attempt (defs.answer request) first = (result, first.withBytes rest) ∧
      attempt (defs.answer other) second = (result, second.withBytes rest) := by
  obtain ⟨result, rest, hrest, hrun⟩ :=
    defs.uniform_read request.schema (request.schemeOn first) first.bytes
  have hanswer : ∀ (asked : Request ι) (source : Source), asked.schema = request.schema →
      asked.schemeOn source = request.schemeOn first → source.bytes = first.bytes →
      defs.answer asked source = outcome result (source.withBytes rest) := by
    intro asked source hschema hscheme hsource
    refine throughAll_eq (P := fun source => source.scheme = request.schemeOn first ∧
      source.bytes = first.bytes) (fun source hsame => ?_) source ⟨?_, ?_⟩
    · rw [hschema]
      exact hrun source hsame.1 hsame.2
    · rw [Source.scheme_eq_headD]
      exact hscheme
    · rw [Source.bytes_adapted, hsource]
  refine ⟨result, rest, hrest, ?_, ?_⟩
  · exact attempt_of_outcome (hanswer request first rfl rfl rfl)
  · exact attempt_of_outcome
      (hanswer other second hmatch.schema_eq.symm hmatch.scheme_eq.symm hbytes.symm)

theorem answers_cons_of_attempt {request : Request ι} {requests : List (Request ι)}
    {source : Source} {result : Except DecodeError Value} {rest : List UInt8}
    (hrun : attempt (defs.answer request) source = (result, source.withBytes rest)) :
    defs.answers (request :: requests) source =
      (result, rest) :: defs.answers requests (source.withBytes rest) := by
  rw [answers, hrun]
  dsimp only
  rw [Source.bytes_withBytes]

/-- Sources with the same bytes agree on all values that are asked of them one after the other,
    each in the same scheme: reading ends in the same way, and the same bytes are left after each
    value, the last ones of all that were left before. -/
theorem answers_agree {first second : Source} (hbytes : first.bytes = second.bytes)
    {requests : List (Request ι × Request ι)}
    (hmatch : ∀ pair ∈ requests, Request.Matches first second pair.1 pair.2) :
    defs.answers (requests.map Prod.fst) first = defs.answers (requests.map Prod.snd) second ∧
      (first.bytes :: (defs.answers (requests.map Prod.fst) first).map Prod.snd).Pairwise
        fun earlier later => later <:+ earlier := by
  induction requests generalizing first second with
  | nil => exact ⟨rfl, List.pairwise_singleton _ _⟩
  | cons pair requests ih =>
    obtain ⟨result, rest, hrest, hfirst, hsecond⟩ :=
      defs.exists_attempt_answer hbytes (hmatch pair (by simp))
    have hleft : (first.withBytes rest).bytes = (second.withBytes rest).bytes := by
      rw [Source.bytes_withBytes, Source.bytes_withBytes]
    obtain ⟨hsame, hchain⟩ := ih hleft fun other hother =>
      (hmatch other (by simp [hother])).withBytes rest rest
    rw [Source.bytes_withBytes] at hchain
    rw [List.map_cons, List.map_cons, defs.answers_cons_of_attempt hfirst,
      defs.answers_cons_of_attempt hsecond, hsame]
    refine ⟨rfl, ?_⟩
    rw [List.map_cons, List.pairwise_cons, ← hsame]
    refine ⟨fun later hlater => ?_, hchain⟩
    rcases List.mem_cons.1 hlater with rfl | hlater
    · exact hrest
    · exact ((List.pairwise_cons.1 hchain).1 later hlater).trans hrest

/-- A counted span is copied out of a slice and split off shared memory, and reading goes on after
    a byte that is no truth value. -/
theorem answers_agree_span :
    let first := Source.decoder .jam (.slice [2, 104, 105, 7, 1])
    let second := Source.borrowed (.shared [2, 104, 105, 7, 1])
    let requests : List (Request Empty × Request Empty) :=
      [(⟨[], .blob⟩, ⟨[.decoder .jam, .borrowed], .blob⟩),
        (⟨[.borrowed, .decoder .classic], .bool⟩, ⟨[], .bool⟩),
        (⟨[], .sequence .vector .unit⟩, ⟨[.decoder .jam, .decoder .classic], .sequence .vector .unit⟩)]
    none.answers (requests.map Prod.fst) first = none.answers (requests.map Prod.snd) second ∧
      (first.bytes :: (none.answers (requests.map Prod.fst) first).map Prod.snd).Pairwise
        fun earlier later => later <:+ earlier := by
  intro first second requests
  have hbytes : first.bytes = second.bytes := rfl
  have hmatch : ∀ pair ∈ requests, Request.Matches first second pair.1 pair.2 := by
    simp only [requests, List.forall_mem_cons]
    exact ⟨⟨rfl, rfl⟩, ⟨rfl, rfl⟩, ⟨rfl, rfl⟩, nofun⟩
  exact none.answers_agree hbytes hmatch

end Definitions

end Scale
