import Scale.Proofs.Writing.Equations

namespace Scale

namespace Sink

/-- The schemes of the encoders around a sink, outermost first. -/
def encoders : Sink → List Scheme
  | buffer _ => []
  | segment _ => []
  | counter _ _ => []
  | borrowed inner => inner.encoders
  | encoder scheme inner => scheme :: inner.encoders

/-- The scheme of a sink without its adapters. Memory has none of its own, so the classic one is
    used. -/
def ownScheme : Sink → Scheme
  | buffer _ => .classic
  | segment _ => .classic
  | counter scheme _ => scheme
  | borrowed inner => inner.ownScheme
  | encoder _ inner => inner.ownScheme

/-- The outermost encoder decides. -/
theorem scheme_eq_headD (sink : Sink) : sink.scheme = sink.encoders.headD sink.ownScheme := by
  induction sink with
  | buffer _ => rfl
  | segment _ => rfl
  | counter _ _ => rfl
  | borrowed _ ih => exact ih
  | encoder _ _ _ => rfl

/-- After what was there before, a sink holds these bytes too, or counts them if that is all it
    does. Its adapters are the same. -/
structure Gains (sink : Sink) (out : List UInt8) (after : Sink) : Prop where
  contents_eq : after.contents? = sink.contents?.map fun (bytes : Array UInt8) => bytes ++ out
  size_eq : after.size = sink.size + out.length
  encoders_eq : after.encoders = sink.encoders
  ownScheme_eq : after.ownScheme = sink.ownScheme

theorem gains_append (sink : Sink) (out : List UInt8) : sink.Gains out (sink.append out) where
  contents_eq := contents?_append out sink
  size_eq := size_append out sink
  encoders_eq := by
    induction sink with
    | buffer _ => rfl
    | segment _ => rfl
    | counter _ _ => rfl
    | borrowed _ ih => exact ih
    | encoder scheme _ ih => exact congrArg (List.cons scheme) ih
  ownScheme_eq := by
    induction sink with
    | buffer _ => rfl
    | segment _ => rfl
    | counter _ _ => rfl
    | borrowed _ ih => exact ih
    | encoder _ _ ih => exact ih

end Sink

namespace Definitions

open Writer

variable {ι ω : Type} (defs : Definitions ι ω) {scheme : Scheme}

/-- What a sink gains when a value is written to it directly, and how that ends, can be seen from
    the bytes of the value unless it fails. -/
theorem exists_write_eq (s : Schema ι ω) (v : Value) (scheme : Scheme) :
    ∃ out : List UInt8,
      (∀ bytes, defs.encodeFull scheme s v = .ok bytes → bytes.toList = out) ∧
      ∀ sink : Sink, sink.scheme = scheme → defs.write s v sink =
        outcome ((defs.encodeFull scheme s v).map fun _ => ()) (sink.append out) := by
  obtain ⟨out, result, hrun⟩ := defs.uniform_write s v scheme
  have hblank := hrun (blankSink scheme) rfl
  refine ⟨out, ?_, ?_⟩
  · intro bytes hfull
    cases result with
    | error e =>
      rw [encodeFull, ← blankSink, hblank] at hfull
      cases hfull
    | ok _ =>
      have hemits : Emits scheme (defs.write s v) bytes.toList := defs.encodeFull_eq_ok_iff.1 hfull
      exact hemits.unique hrun
  · intro sink hscheme
    rw [hrun sink hscheme, encodeFull, ← blankSink, hblank]
    cases result <;> rfl

/-- Counting the bytes of a value finds how many there are. -/
theorem encodedSize_eq (s : Schema ι ω) (v : Value) :
    defs.encodedSize scheme s v = (defs.encodeFull scheme s v).map Array.size := by
  obtain ⟨out, hout, hwrite⟩ := defs.exists_write_eq s v scheme
  rw [encodedSize, hwrite (.counter scheme 0) rfl]
  cases hfull : defs.encodeFull scheme s v with
  | error e => rfl
  | ok bytes =>
    have hsize : (Sink.counter scheme 0).size + out.length = bytes.size := by
      rw [← hout bytes hfull, Array.length_toList]
      exact Nat.zero_add _
    refine congrArg Except.ok ?_
    rw [Sink.size_append, hsize]

theorem encode_of_ok {s : Schema ι ω} {v : Value} {sink : Sink} {bytes : Array UInt8}
    (hfull : defs.encodeFull sink.scheme s v = .ok bytes) :
    defs.encode s v sink = .ok () (sink.append bytes.toList) := by
  have hscheme : Writer.scheme sink = .ok sink.scheme sink := rfl
  rw [encode, Step.bind_of_ok hscheme, hfull]
  rfl

theorem encode_of_error {s : Schema ι ω} {v : Value} {sink : Sink} {e : EncodeError}
    (hfull : defs.encodeFull sink.scheme s v = .error e) :
    defs.encode s v sink = .error e sink := by
  have hscheme : Writer.scheme sink = .ok sink.scheme sink := rfl
  rw [encode, Step.bind_of_ok hscheme, hfull]
  rfl

/-- For each scheme there are bytes that every sink of the scheme gains when a value is written to
    it, wherever that ends. If it ends well, then these are the bytes of the value, as many as are
    counted for it, and staging it first gains the same; if not, staging it leaves the sink alone. -/
theorem encode_all_or_nothing (s : Schema ι ω) (v : Value) (scheme : Scheme) :
    defs.encodedSize scheme s v = (defs.encodeFull scheme s v).map Array.size ∧
    ∃ out : List UInt8,
      (∀ bytes, defs.encodeFull scheme s v = .ok bytes → bytes.toList = out) ∧
      ∀ sink : Sink, sink.encoders.headD sink.ownScheme = scheme →
        let after := sink.append out
        sink.Gains out after ∧
        match defs.encodeFull scheme s v with
        | .ok _ => defs.encode s v sink = .ok () after ∧ defs.write s v sink = .ok () after
        | .error e => defs.encode s v sink = .error e sink ∧ defs.write s v sink = .error e after := by
  refine ⟨defs.encodedSize_eq s v, ?_⟩
  obtain ⟨out, hout, hwrite⟩ := defs.exists_write_eq s v scheme
  refine ⟨out, hout, fun sink hstack => ⟨sink.gains_append out, ?_⟩⟩
  have hscheme : sink.scheme = scheme := sink.scheme_eq_headD.trans hstack
  have hrun := hwrite sink hscheme
  cases hfull : defs.encodeFull scheme s v with
  | ok bytes =>
    rw [hfull] at hrun
    have hencode := defs.encode_of_ok (hscheme ▸ hfull)
    rw [hout bytes hfull] at hencode
    exact ⟨hencode, hrun⟩
  | error e =>
    rw [hfull] at hrun
    exact ⟨defs.encode_of_error (hscheme ▸ hfull), hrun⟩

end Definitions

end Scale
