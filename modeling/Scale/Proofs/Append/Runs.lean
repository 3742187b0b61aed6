import Scale.Proofs.Append.Outcomes

namespace Scale.Appender

/-- A call that appends items, which are encoded already. -/
inductive Call where
  /-- A single item. -/
  | one (item : List UInt8)
  /-- Any number of items. -/
  | batch (items : List (List UInt8))
  deriving DecidableEq, Repr

/-- The items of a call. -/
def Call.items : Call → List (List UInt8)
  | one item => [item]
  | batch items => items

/-- Makes a call. A batch is handed over as one span, with the number of items in it. -/
def Call.run (scheme : Scheme) : Call → Appender Unit
  | one item => appendItem scheme item
  | batch items => appendItems scheme items.flatten (UInt64.ofNat items.length)

/-- The items of all calls, in order. -/
def appended (calls : List Call) : List (List UInt8) :=
  calls.flatMap Call.items

variable {scheme : Scheme} {n : Nat} {payload : List UInt8} {calls : List Call}

theorem run_eq_appendItems (call : Call) :
    call.run scheme = appendItems scheme call.items.flatten (UInt64.ofNat call.items.length) := by
  cases call with
  | one item =>
    have hitem : [item].flatten = item := by simp
    rw [Call.run, Call.items, hitem]
    rfl
  | batch items => rfl

theorem run_nil {call : Call} (hword : call.items.length < 2 ^ 64) :
    call.run scheme [] = .ok () (scheme.spelling call.items.length ++ call.items.flatten) := by
  rw [run_eq_appendItems, appendItems_nil, UInt64.toNat_ofNat_of_lt' hword]

/-- A call counts its items and puts them behind those that are there. -/
theorem run_collection {call : Call} (hfits : n + call.items.length < 2 ^ 64) :
    call.run scheme (scheme.spelling n ++ payload) = .ok ()
      (scheme.spelling (n + call.items.length) ++ (payload ++ call.items.flatten)) := by
  have hcount : (UInt64.ofNat call.items.length).toNat = call.items.length :=
    UInt64.toNat_ofNat_of_lt' (Nat.lt_of_le_of_lt (Nat.le_add_left _ n) hfits)
  rw [run_eq_appendItems, appendItems_header (by rwa [hcount]), hcount, List.append_assoc]

theorem appended_cons (call : Call) (calls : List Call) :
    appended (call :: calls) = call.items ++ appended calls :=
  List.flatMap_cons

/-- The same for any number of calls, as each finds what the one before has left. -/
theorem forM_run_collection (hfits : n + (appended calls).length < 2 ^ 64) :
    calls.forM (Call.run scheme) (scheme.spelling n ++ payload) = .ok ()
      (scheme.spelling (n + (appended calls).length) ++ (payload ++ (appended calls).flatten)) := by
  induction calls generalizing n payload with
  | nil =>
    change EStateM.Result.ok () (scheme.spelling n ++ payload) = _
    simp [appended]
  | cons call calls ih =>
    rw [appended_cons, List.length_append] at hfits ⊢
    have hstep : call.run scheme (scheme.spelling n ++ payload) = _ := run_collection (by omega)
    rw [Step.forM_cons_of_ok hstep, ih (by omega), Nat.add_assoc, List.flatten_append,
      List.append_assoc]

/-- The first call on an empty buffer starts the collection. -/
theorem forM_run_nil (hne : calls ≠ []) (hfits : (appended calls).length < 2 ^ 64) :
    calls.forM (Call.run scheme) [] = .ok ()
      (scheme.spelling (appended calls).length ++ (appended calls).flatten) := by
  cases calls with
  | nil => exact absurd rfl hne
  | cons call calls =>
    rw [appended_cons, List.length_append] at hfits ⊢
    have hstep : call.run scheme [] = _ := run_nil (by omega)
    rw [Step.forM_cons_of_ok hstep, forM_run_collection hfits, List.flatten_append]

end Scale.Appender

namespace Scale.Definitions

open Writer

variable {ι ω : Type} (defs : Definitions ι ω) {scheme : Scheme} {s : Schema ι ω}

/-- Items are written one after the other as they are encoded. -/
theorem emits_forM_of_map {vs : List Value} {spans : List (List UInt8)}
    (hspans : vs.map (defs.encodeFull scheme s) = spans.map fun span => .ok span.toArray) :
    Emits scheme (vs.forM (defs.write s)) spans.flatten := by
  induction vs generalizing spans with
  | nil =>
    obtain rfl : spans = [] := List.map_eq_nil_iff.1 hspans.symm
    exact Emits.pure
  | cons v vs ih =>
    cases spans with
    | nil => cases hspans
    | cons span spans =>
      obtain ⟨hspan, hrest⟩ := List.cons.inj hspans
      rw [List.forM_eq_forM, List.forM_cons, ← List.forM_eq_forM, List.flatten_cons]
      exact Emits.bind (defs.encodeFull_eq_ok_iff.1 hspan) (ih hrest)

/-- The encoding of a vector is the number of its items and what is written for them. -/
theorem encodeFull_vector_iff {vs : List Value} {bytes : Array UInt8} :
    defs.encodeFull scheme (.sequence .vector s) (.list vs) = .ok bytes ↔
      vs.length < scheme.capacity ∧ ∃ payload, Emits scheme (vs.forM (defs.write s)) payload ∧
        bytes.toList = scheme.spelling vs.length ++ payload := by
  rw [encodeFull_eq_ok_iff, write_sequence]
  constructor
  · intro hemits
    obtain ⟨header, payload, hbytes, hcount, hitems⟩ := hemits.of_seq (Uniform.putCount _)
      (Uniform.forM fun v _ => defs.uniform_write s v)
    obtain ⟨hlt, rfl⟩ := emits_putCount_iff.1 hcount
    exact ⟨hlt, payload, hitems, hbytes⟩
  · rintro ⟨hlt, payload, hitems, hbytes⟩
    rw [hbytes]
    exact Emits.bind (emits_putCount_iff.2 ⟨hlt, rfl⟩) hitems

/-- A buffer that items can be appended to: it is the encoding of a vector, or it is empty, and so
    is the vector. -/
def Accepts (scheme : Scheme) (s : Schema ι ω) (buffer : List UInt8) (vs : List Value) : Prop :=
  buffer = [] ∧ vs = [] ∨
    defs.encodeFull scheme (.sequence .vector s) (.list vs) = .ok buffer.toArray

open Appender

variable {calls : List Call} {buffer : List UInt8} {olds news : List Value}

theorem forM_run_vector (hcalls : calls ≠ []) (hstart : defs.Accepts scheme s buffer olds)
    (hitems : news.map (defs.encodeFull scheme s) =
      (appended calls).map fun item => .ok item.toArray)
    (hfits : olds.length + news.length < 2 ^ 64) :
    ∃ bytes, defs.encodeFull scheme (.sequence .vector s) (.list (olds ++ news)) = .ok bytes ∧
      calls.forM (Call.run scheme) buffer = .ok () bytes.toList := by
  have hlength : news.length = (appended calls).length := by
    simpa using congrArg List.length hitems
  have hnews := defs.emits_forM_of_map hitems
  rw [hlength] at hfits
  obtain ⟨rfl, rfl⟩ | hfull := hstart
  · have hword : (appended calls).length < 2 ^ 64 := by simpa using hfits
    refine ⟨(scheme.spelling (appended calls).length ++ (appended calls).flatten).toArray, ?_, ?_⟩
    · refine defs.encodeFull_vector_iff.2 ⟨?_, _, hnews, ?_⟩
      · rw [List.nil_append, hlength]
        exact Scheme.lt_capacity_of_lt hword
      · rw [List.nil_append, hlength]
    · exact forM_run_nil hcalls hword
  · obtain ⟨_, payload, holds, hbuffer⟩ := defs.encodeFull_vector_iff.1 hfull
    rw [List.toList_toArray] at hbuffer
    refine ⟨(scheme.spelling (olds.length + (appended calls).length) ++
      (payload ++ (appended calls).flatten)).toArray, ?_, ?_⟩
    · refine defs.encodeFull_vector_iff.2 ⟨?_, payload ++ (appended calls).flatten, ?_, ?_⟩
      · rw [List.length_append, hlength]
        exact Scheme.lt_capacity_of_lt hfits
      · rw [List.forM_eq_forM, List.forM_append]
        exact Emits.bind holds hnews
      · rw [List.length_append, hlength]
    · rw [hbuffer]
      exact forM_run_collection hfits

/-- An item that is encoded already is its own encoding. -/
theorem encodeFull_encoded (writeOnly : ω) (span : List UInt8) :
    defs.encodeFull scheme (.encoded writeOnly) (.blob span) = .ok span.toArray := by
  rw [encodeFull_eq_ok_iff, ← writeWith_write, Schema.writeWith, List.toList_toArray]
  exact Emits.putSpan span

/-- Whatever calls are made, each of them succeeds, and the buffer ends up as the encoding of the
    vector of those items that it began with and of all that were appended. This goes for items of
    any type that were encoded in the same scheme. -/
theorem forM_run_eq_encodeFull (scheme : Scheme) {calls : List Call} (hcalls : calls ≠ [])
    (buffer : List UInt8) :
    (∀ xs : List (List UInt8),
      (none : Definitions Empty Unit).Accepts scheme (.encoded ()) buffer (xs.map .blob) →
      xs.length + (appended calls).length < 2 ^ 64 →
      ∃ bytes, (none : Definitions Empty Unit).encodeFull scheme (.sequence .vector (.encoded ()))
          (.list ((xs ++ appended calls).map .blob)) = .ok bytes ∧
        calls.forM (Call.run scheme) buffer = .ok () bytes.toList) ∧
    ∀ {ι ω : Type} (defs : Definitions ι ω) (s : Schema ι ω) (olds news : List Value),
      defs.Accepts scheme s buffer olds →
      news.map (defs.encodeFull scheme s) =
        (appended calls).map (fun item => .ok item.toArray) →
      olds.length + news.length < 2 ^ 64 →
      ∃ bytes, defs.encodeFull scheme (.sequence .vector s) (.list (olds ++ news)) = .ok bytes ∧
        calls.forM (Call.run scheme) buffer = .ok () bytes.toList := by
  constructor
  · intro xs hstart hfits
    have hitems : ((appended calls).map Value.blob).map
        ((none : Definitions Empty Unit).encodeFull scheme (.encoded ())) =
          (appended calls).map fun item => .ok item.toArray := by
      rw [List.map_map]
      exact List.map_congr_left fun item _ => encodeFull_encoded _ () item
    rw [List.map_append]
    exact forM_run_vector _ hcalls hstart hitems (by simpa using hfits)
  · intro ι ω defs s olds news hstart hitems hfits
    exact forM_run_vector defs hcalls hstart hitems hfits

/-- The count of 63 items takes one byte, and that of the 66 items after these calls takes two. -/
theorem forM_run_eq_encodeFull_longer_count :
    ∃ bytes, (none : Definitions Empty Unit).encodeFull .classic (.sequence .vector (.encoded ()))
        (.list ((List.replicate 63 [1] ++ [[2], [3, 4], []] : List (List UInt8)).map .blob)) =
          .ok bytes ∧
      [Call.one [2], .batch [[3, 4], []]].forM (Call.run .classic) (252 :: List.replicate 63 1) =
        .ok () bytes.toList := by
  have hencoded : (none : Definitions Empty Unit).encodeFull .classic
      (.sequence .vector (.encoded ())) (.list ((List.replicate 63 [1]).map .blob)) =
        .ok (252 :: List.replicate 63 1).toArray := by rfl
  have hfits : (List.replicate 63 [(1 : UInt8)]).length +
      (appended [Call.one [2], .batch [[3, 4], []]]).length < 2 ^ 64 := by decide
  exact (forM_run_eq_encodeFull .classic (List.cons_ne_nil _ _) _).1 (List.replicate 63 [1])
    (Or.inr hencoded) hfits

end Scale.Definitions
