import Scale.Encode
import Scale.Proofs.Counts

namespace Scale.Writer

variable {α β : Type} {scheme : Scheme}

/-- The error that a step ends with on sinks of the scheme, if it fails. -/
def verdict (scheme : Scheme) (step : Writer α) : Option EncodeError :=
  match step (blankSink scheme) with
  | .ok _ _ => none
  | .error e _ => some e

/-- One run of a uniform step that fails shows how it ends on all sinks of the scheme. -/
theorem Uniform.verdict_of_error {step : Writer α} (huniform : Uniform step) {sink final : Sink}
    {e : EncodeError} (hrun : step sink = .error e final) : verdict sink.scheme step = some e := by
  obtain ⟨out, result, hall⟩ := huniform sink.scheme
  have hblank : step (blankSink sink.scheme) = outcome result ((blankSink sink.scheme).append out) :=
    hall _ rfl
  rw [hall sink rfl] at hrun
  rw [verdict, hblank]
  cases result with
  | ok a => cases hrun
  | error e' =>
    obtain ⟨rfl, _⟩ := EStateM.Result.error.inj hrun
    rfl

@[simp] theorem verdict_pure (a : α) : verdict scheme (pure a) = none :=
  rfl

@[simp] theorem verdict_throw (e : EncodeError) :
    verdict scheme (throw e : Writer α) = some e :=
  rfl

@[simp] theorem verdict_putByte (byte : UInt8) : verdict scheme (putByte byte) = none :=
  rfl

@[simp] theorem verdict_putSpan (span : List UInt8) : verdict scheme (putSpan span) = none :=
  rfl

theorem verdict_seq {first : Writer α} {second : Writer β} (hfirst : Uniform first)
    (hsecond : Uniform second) : verdict scheme (first >>= fun _ => second) =
      (verdict scheme first).or (verdict scheme second) := by
  obtain ⟨out, result, hrun⟩ := hfirst scheme
  obtain ⟨more, final, hmore⟩ := hsecond scheme
  have hblank := hrun (blankSink scheme) rfl
  unfold verdict
  cases result with
  | error e => rw [Step.bind_of_error hblank, hblank]; rfl
  | ok a =>
    rw [Step.bind_of_ok hblank, hblank, hmore _ (Sink.scheme_append _ _),
      hmore (blankSink scheme) rfl]
    cases final <;> rfl

theorem findSome?_cons_eq_or {f : α → Option β} {a : α} {items : List α} :
    (a :: items).findSome? f = (f a).or (items.findSome? f) := by
  rw [List.findSome?_cons]
  cases f a <;> rfl

/-- What is found first in all lists is found first in the first list that has any. -/
theorem findSome?_flatMap {γ : Type} {f : α → Option γ} {g : α → List β} {p : β → Option γ}
    {items : List α} (hitems : ∀ a ∈ items, f a = (g a).findSome? p) :
    items.findSome? f = (items.flatMap g).findSome? p := by
  induction items with
  | nil => rfl
  | cons a items ih =>
    rw [findSome?_cons_eq_or, hitems a (by simp), ih fun b hb => hitems b (by simp [hb]),
      List.flatMap_cons, List.findSome?_append]

theorem verdict_forM {put : α → Writer Unit} {items : List α}
    (hput : ∀ a ∈ items, Uniform (put a)) :
    verdict scheme (items.forM put) = items.findSome? fun a => verdict scheme (put a) := by
  induction items with
  | nil => rfl
  | cons a items ih =>
    have hrest : ∀ b ∈ items, Uniform (put b) := fun b hb => hput b (by simp [hb])
    rw [List.forM_eq_forM, List.forM_cons, ← List.forM_eq_forM,
      verdict_seq (hput a (by simp)) (Uniform.forM hrest), ih hrest, findSome?_cons_eq_or]

/-- A compact integer must not be negative, and is to be below the capacity of the scheme. -/
theorem verdict_putCompact (n : Int) : verdict scheme (putCompact n) =
    if n < 0 then some .negativeInteger
    else if (scheme.capacity : Int) ≤ n then some .valueTooBig else none := by
  by_cases hneg : n < 0
  · rw [putCompact_of_neg hneg, if_pos hneg]
    rfl
  · rw [putCompact_of_nonneg (Int.not_lt.1 hneg), if_neg hneg]
    have hdigits : verdict scheme (putDigits (Digits.ofNat n.toNat)) =
        verdict scheme (scheme.put (Digits.ofNat n.toNat)) := rfl
    rw [hdigits, Scheme.put_eq, Digits.toNat_ofNat]
    by_cases hlarge : scheme.capacity ≤ n.toNat
    · rw [if_pos hlarge, if_pos (by omega)]
      rfl
    · rw [if_neg hlarge, if_neg (by omega)]
      rfl

/-- Counts are words, and these all have a compact form. -/
theorem verdict_putCount {count : Nat} (hcount : count ≤ maxCount) :
    verdict scheme (putCount count) = none := by
  have hlt : count < scheme.capacity :=
    Scheme.lt_capacity_of_lt (Nat.lt_of_le_of_lt hcount (by decide))
  have hrun := emits_putCount_iff.2 ⟨hlt, rfl⟩ (blankSink scheme) rfl
  rw [verdict, hrun]

theorem verdict_putCounted {put : α → Writer Unit} {items : List α}
    (hcount : items.length ≤ maxCount) (hput : ∀ a ∈ items, Uniform (put a)) :
    verdict scheme (putCounted put items) = items.findSome? fun a => verdict scheme (put a) := by
  rw [putCounted, verdict_seq (Uniform.putCount _) (Uniform.forM hput), verdict_putCount hcount,
    Option.none_or, verdict_forM hput]

/-- Encoding fails with what writing ends with. -/
theorem encodeFull_of_verdict {ι ω : Type} {defs : Definitions ι ω} {s : Schema ι ω} {v : Value}
    {e : EncodeError} (hverdict : verdict scheme (defs.write s v) = some e) :
    defs.encodeFull scheme s v = .error e := by
  unfold verdict at hverdict
  rw [Definitions.encodeFull, ← blankSink]
  cases hrun : defs.write s v (blankSink scheme) with
  | ok _ _ =>
    rw [hrun] at hverdict
    cases hverdict
  | error e' _ =>
    rw [hrun] at hverdict
    exact congrArg Except.error (Option.some.inj hverdict)

end Scale.Writer
