import Scale.Compact.Basic
import Scale.Proofs.Step

namespace Scale.Writer

variable {α β : Type} {scheme : Scheme} {xs ys : List UInt8}

/-- The end of a step that leaves the given sink behind. -/
def outcome : Except EncodeError α → Sink → EStateM.Result EncodeError Sink α
  | .ok a, sink => .ok a sink
  | .error e, sink => .error e sink

/-- What the step adds to a sink and how it ends depend on the scheme of the sink only. -/
def Uniform (step : Writer α) : Prop :=
  ∀ scheme, ∃ (out : List UInt8) (result : Except EncodeError α), ∀ sink : Sink,
    sink.scheme = scheme → step sink = outcome result (sink.append out)

/-- The step succeeds on every sink of the scheme and adds just these bytes. -/
def Emits (scheme : Scheme) (step : Writer Unit) (bytes : List UInt8) : Prop :=
  ∀ sink : Sink, sink.scheme = scheme → step sink = .ok () (sink.append bytes)

/-- An empty sink of a scheme. -/
def blankSink (scheme : Scheme) : Sink :=
  .encoder scheme (.buffer #[])

theorem append_blankSink_inj (happend : (blankSink scheme).append xs = (blankSink scheme).append ys) :
    xs = ys := by
  have hcontents := congrArg Sink.contents? happend
  have harrays : (#[] : Array UInt8) ++ xs = (#[] : Array UInt8) ++ ys := by
    simpa [blankSink, Sink.contents?] using hcontents
  simpa using congrArg Array.toList harrays

theorem Emits.unique {step : Writer Unit} (hxs : Emits scheme step xs) (hys : Emits scheme step ys) :
    xs = ys := by
  have happend := (hxs (blankSink scheme) rfl).symm.trans (hys (blankSink scheme) rfl)
  exact append_blankSink_inj (EStateM.Result.ok.inj happend).2

theorem Emits.pure : Emits scheme (Pure.pure ()) [] := by
  intro sink _
  rw [Sink.append_nil]
  rfl

theorem Emits.putByte (byte : UInt8) : Emits scheme (putByte byte) [byte] := by
  intro sink _
  rw [← Sink.push_eq_append]
  rfl

theorem putByte_putSpan (byte : UInt8) (span : List UInt8) :
    (do putByte byte; putSpan span) = putSpan (byte :: span) := by
  funext sink
  have hpush : (sink.push byte).append span = sink.append (byte :: span) := by
    rw [Sink.push_eq_append, Sink.append_append, List.singleton_append]
  exact congrArg (EStateM.Result.ok ()) hpush

theorem Emits.putSpan (span : List UInt8) : Emits scheme (putSpan span) span :=
  fun _ _ => rfl

theorem Emits.bind {first second : Writer Unit} (hfirst : Emits scheme first xs)
    (hsecond : Emits scheme second ys) : Emits scheme (first >>= fun _ => second) (xs ++ ys) := by
  intro sink hscheme
  rw [Step.bind_of_ok (hfirst sink hscheme), hsecond _ (by rw [Sink.scheme_append, hscheme]),
    Sink.append_append]

theorem Uniform.pure (a : α) : Uniform (Pure.pure a : Writer α) := by
  intro scheme
  refine ⟨[], .ok a, fun sink _ => ?_⟩
  rw [Sink.append_nil]
  rfl

theorem Uniform.throw (e : EncodeError) : Uniform (throw e : Writer α) := by
  intro scheme
  refine ⟨[], .error e, fun sink _ => ?_⟩
  rw [Sink.append_nil]
  rfl

theorem uniform_scheme : Uniform Writer.scheme := by
  intro scheme
  refine ⟨[], .ok scheme, fun sink hscheme => ?_⟩
  rw [Sink.append_nil, ← hscheme]
  rfl

theorem Uniform.bind {step : Writer α} {next : α → Writer β} (hstep : Uniform step)
    (hnext : ∀ a, Uniform (next a)) : Uniform (step >>= next) := by
  intro scheme
  obtain ⟨out, result, hrun⟩ := hstep scheme
  cases result with
  | error e => exact ⟨out, .error e, fun sink hscheme => Step.bind_of_error (hrun sink hscheme)⟩
  | ok a =>
    obtain ⟨more, final, hmore⟩ := hnext a scheme
    refine ⟨out ++ more, final, fun sink hscheme => ?_⟩
    rw [Step.bind_of_ok (hrun sink hscheme), hmore _ (by rw [Sink.scheme_append, hscheme]),
      Sink.append_append]

theorem Emits.uniform {step : Writer Unit} (hemits : ∀ scheme, ∃ bytes, Emits scheme step bytes) :
    Uniform step := by
  intro scheme
  obtain ⟨bytes, hbytes⟩ := hemits scheme
  exact ⟨bytes, .ok (), hbytes⟩

theorem Uniform.putByte (byte : UInt8) : Uniform (putByte byte) :=
  Emits.uniform fun _ => ⟨_, Emits.putByte byte⟩

theorem Uniform.putSpan (span : List UInt8) : Uniform (putSpan span) :=
  Emits.uniform fun _ => ⟨_, Emits.putSpan span⟩

theorem Uniform.forM {put : α → Writer Unit} {items : List α}
    (hput : ∀ a ∈ items, Uniform (put a)) : Uniform (items.forM put) := by
  induction items with
  | nil => exact Uniform.pure ()
  | cons a items ih =>
    rw [List.forM_eq_forM, List.forM_cons, ← List.forM_eq_forM]
    exact Uniform.bind (hput a (by simp)) fun _ => ih fun b hb => hput b (by simp [hb])

/-- One successful run of a uniform step shows what it emits on all sinks of the scheme. -/
theorem Uniform.emits_of_ok {step : Writer Unit} (huniform : Uniform step) {sink final : Sink}
    (hrun : step sink = .ok () final) :
    ∃ bytes, final = sink.append bytes ∧ Emits sink.scheme step bytes := by
  obtain ⟨out, result, hall⟩ := huniform sink.scheme
  cases result with
  | error e =>
    rw [hall sink rfl] at hrun
    cases hrun
  | ok _ =>
    rw [hall sink rfl] at hrun
    exact ⟨out, (EStateM.Result.ok.inj hrun).2.symm, hall⟩

/-- What a sequence emits is what its steps emit, one after the other. -/
theorem Emits.of_bind {first : Writer α} {second : α → Writer Unit} (hfirst : Uniform first)
    (hsecond : ∀ a, Uniform (second a)) {bytes : List UInt8}
    (hemits : Emits scheme (first >>= second) bytes) :
    ∃ a xs ys, bytes = xs ++ ys ∧
      (∀ sink : Sink, sink.scheme = scheme → first sink = .ok a (sink.append xs)) ∧
      Emits scheme (second a) ys := by
  obtain ⟨xs, result, hxs⟩ := hfirst scheme
  cases result with
  | error e =>
    have hrun := hemits (blankSink scheme) rfl
    rw [Step.bind_of_error (hxs _ rfl)] at hrun
    cases hrun
  | ok a =>
    have hrun := hemits (blankSink scheme) rfl
    rw [Step.bind_of_ok (hxs _ rfl)] at hrun
    obtain ⟨ys, hfinal, hys⟩ := (hsecond a).emits_of_ok hrun
    rw [Sink.scheme_append] at hys
    rw [Sink.append_append] at hfinal
    exact ⟨a, xs, ys, append_blankSink_inj hfinal, hxs, hys⟩

/-- The same for steps that give nothing. -/
theorem Emits.of_seq {first second : Writer Unit} (hfirst : Uniform first)
    (hsecond : Uniform second) {bytes : List UInt8}
    (hemits : Emits scheme (first >>= fun _ => second) bytes) :
    ∃ xs ys, bytes = xs ++ ys ∧ Emits scheme first xs ∧ Emits scheme second ys := by
  obtain ⟨_, xs, ys, hbytes, hxs, hys⟩ := hemits.of_bind hfirst fun _ => hsecond
  exact ⟨xs, ys, hbytes, hxs, hys⟩

theorem not_emits_throw {e : EncodeError} {bytes : List UInt8} :
    ¬ Emits scheme (throw e) bytes := by
  intro hemits
  have hrun := hemits (blankSink scheme) rfl
  cases hrun

/-- Digits are written in the scheme of the sink. -/
theorem emits_putDigits_iff {digits : Digits} {bytes : List UInt8} :
    Emits scheme (putDigits digits) bytes ↔ Emits scheme (scheme.put digits) bytes := by
  constructor
  all_goals
    intro hemits sink hscheme
    have hrun := hemits sink hscheme
    subst hscheme
    exact hrun

end Scale.Writer
