import Mathlib.Data.List.Perm.Subperm
import Scale.Overwrite
import Scale.Proofs.Overwriting.Merge
import Scale.Proofs.Reading.Congruence
import Scale.Proofs.Reading.Spans
import Scale.Proofs.Value.Place

namespace Scale

theorem mem_zip_zipWith {α β γ : Type} {f : α → β → γ} {as : List α} {bs : List β} {a : α} {b : β}
    (hmem : (a, b) ∈ as.zip bs) : (a, f a b) ∈ as.zip (List.zipWith f as bs) := by
  obtain ⟨k, hk⟩ := List.mem_iff_getElem?.1 hmem
  obtain ⟨ha, hb⟩ := List.getElem?_zip_eq_some.1 hk
  refine List.mem_of_getElem? (List.getElem?_zip_eq_some.2 ⟨ha, ?_⟩)
  rw [List.getElem?_zipWith, ha, hb]

namespace Reader

variable {merge : Value → Value → Value} {item : Reader Value} {renew : Value → Reader Value}

/-- Steps that end with a function of what they read may all be taken before it is applied. -/
theorem mapM_eq_zipWith {α β γ : Type} {step : α → Reader β} {step' : α → Reader γ} {f : α → β → γ}
    {items : List α} (hstep : ∀ a ∈ items, step' a = do
      let b ← step a
      return f a b) :
    items.mapM step' = (do
      let bs ← items.mapM step
      return List.zipWith f items bs) := by
  induction items with
  | nil => rfl
  | cons a items ih =>
    have hrest := ih fun b hb => hstep b (by simp [hb])
    simp only [List.mapM_cons, hstep a (by simp), hrest, bind_assoc, pure_bind,
      List.zipWith_cons_cons]

theorem overwriteOnto_eq (more : Nat) {olds : List Value} (done : List Value)
    (hrenew : ∀ old ∈ olds, renew old = do
      let v ← item
      return merge old v) :
    overwriteOnto renew item more olds done = (do
      let vs ← readMany (olds.length + more) item
      return done.reverse ++ Value.mergeItems merge olds vs) := by
  induction olds generalizing done with
  | nil =>
    simp only [overwriteOnto, readManyOnto_eq, Value.mergeItems_nil, List.length_nil, Nat.zero_add]
  | cons old olds ih =>
    have hrest := fun done => ih done fun other hother => hrenew other (by simp [hother])
    rw [overwriteOnto, hrenew old (by simp), List.length_cons, Nat.add_right_comm, readMany_succ]
    simp only [hrest, bind_assoc, pure_bind, Value.mergeItems, List.reverse_cons, List.append_assoc,
      List.singleton_append]

/-- Items are read over old ones as they are read afresh, old ones beyond the count left aside. -/
theorem overwriteMany_eq (count : Nat) {olds : List Value}
    (hrenew : ∀ old ∈ olds, renew old = do
      let v ← item
      return merge old v) :
    overwriteMany renew item count olds = (do
      let vs ← readMany count item
      return Value.mergeItems merge olds vs) := by
  have hlength : (olds.take count).length + (count - (olds.take count).length) = count := by
    rw [List.length_take]
    omega
  rw [overwriteMany, overwriteOnto_eq _ [] fun old hold => hrenew old (List.mem_of_mem_take hold),
    hlength]
  refine Step.bind_congr_of_ok fun hvs => ?_
  rw [Value.mergeItems_take (Nat.le_of_eq (length_of_readMany hvs)), List.reverse_nil,
    List.nil_append]

end Reader

namespace Schema

theorem overwriteAt_eq {ι : Type} (named : ι → Layout) (self : ι → Reader Value)
    (selfOver : ι → Value → Reader Value) (fields : List (Schema ι Empty)) (olds : List Value)
    (i : Nat) : overwriteAt named self selfOver fields olds i =
      match fields[i]?, olds[i]? with
      | some field, some old => field.overwriteWith named self selfOver old
      | some field, none => field.readWith named self
      | none, _ => throw .wrongTypeIndex := by
  induction fields generalizing olds i with
  | nil => rfl
  | cons field fields ih =>
    cases i with
    | zero => cases olds <;> rfl
    | succ i =>
      rw [overwriteAt, ih]
      cases olds <;> rfl

/-- No field is left uncoded when there are as many coded fields as there are fields. -/
theorem length_order_eq_iff {ι ω : Type} {labels : Labels} {selection : Selection}
    {fields : List (Schema ι ω)} (hadmissible : (record labels selection fields).Admissible) :
    selection.order.length = fields.length ↔ (record labels selection fields).FullyCoded := by
  obtain ⟨hnodup, hrange⟩ := hadmissible
  have hsubperm : selection.order.Subperm (List.range fields.length) :=
    hnodup.subperm fun i hi => List.mem_range.2 (hrange i hi)
  constructor
  · intro hlength i hi
    have hperm := hsubperm.perm_of_length_le (Nat.le_of_eq (List.length_range.trans hlength.symm))
    exact hperm.mem_iff.2 (List.mem_range.2 hi)
  · intro hcoded
    have hsuper : (List.range fields.length).Subperm selection.order :=
      List.nodup_range.subperm fun i hi => hcoded i (List.mem_range.1 hi)
    rw [(hsubperm.antisymm hsuper).length_eq, List.length_range]

end Schema

namespace Definitions

open Reader

variable {ι : Type} {defs : Definitions ι Empty} {self : ι → Reader Value}
  {selfOver : ι → Value → Reader Value}

/-- Reading over a value of the schema, by the step `renew`, is reading one afresh, by the step
    `step`, and merging it with the old one. -/
def Overwrites (defs : Definitions ι Empty) (s : Schema ι Empty) (step : Reader Value)
    (renew : Value → Reader Value) : Prop :=
  defs.WellFormed s → ∀ old, defs.HasType s old → renew old = do
    let v ← step
    return defs.merge s old v

/-- Where nothing is merged, the value is just read. -/
theorem Overwrites.of_fresh {s : Schema ι Empty} {step : Reader Value} {renew : Value → Reader Value}
    (hrenew : ∀ old, renew old = step) (hmerge : ∀ old v, defs.merge s old v = v) :
    defs.Overwrites s step renew := by
  intro _ old _
  simp only [hrenew, hmerge, bind_pure]

/-- What a field becomes when it is read over. -/
def mergeAt (defs : Definitions ι Empty) (fields : List (Schema ι Empty)) (olds : List Value)
    (i : Nat) (v : Value) : Value :=
  match fields[i]?, olds[i]? with
  | some field, some old => defs.merge field old v
  | _, _ => v

/-- The fields that are read have their places among the old ones like among the defaults. -/
theorem merge_place {labels : Labels} {selection : Selection} {fields : List (Schema ι Empty)}
    {olds vs : List Value} (hadmissible : (Schema.record labels selection fields).Admissible)
    (hcoded : ¬ (Schema.record labels selection fields).FullyCoded)
    (holds : olds.length = fields.length) (hvs : vs.length = selection.order.length) :
    defs.merge (.record labels selection fields) (.list olds)
        (.list (Value.place selection.order vs (selection.blank fields.length))) =
      .list (Value.place selection.order
        (List.zipWith (defs.mergeAt fields olds) selection.order vs) olds) := by
  obtain ⟨hnodup, hrange⟩ := hadmissible
  have hplaced : (Value.place selection.order vs (selection.blank fields.length)).length =
      fields.length := by simp
  rw [merge_record defs hcoded]
  refine congrArg Value.list (List.ext_getElem? fun i => ?_)
  rw [defs.getElem?_mergeAll holds hplaced]
  by_cases hi : i ∈ selection.order
  · have hlt := hrange i hi
    obtain ⟨v, hmem⟩ := exists_mem_zip hvs hi
    rw [selection.getElem?_place_blank _ hnodup hrange hmem,
      Value.getElem?_place_of_mem_zip hnodup (holds ▸ hrange) (mem_zip_zipWith hmem), mergeAt,
      List.getElem?_eq_getElem hlt, List.getElem?_eq_getElem (holds.symm ▸ hlt)]
    exact congrArg some (if_pos (decide_eq_true hi))
  · simp only [Value.getElem?_place_of_not_mem hi]
    by_cases hlt : i < fields.length
    · rw [List.getElem?_eq_getElem hlt, List.getElem?_eq_getElem (holds.symm ▸ hlt),
        selection.getElem?_blank _ hlt]
      exact congrArg some (if_neg (mt of_decide_eq_true hi))
    · rw [List.getElem?_eq_none (Nat.not_lt.1 hlt), List.getElem?_eq_none (holds ▸ Nat.not_lt.1 hlt)]

theorem overwriteAll_eq {items : List (Schema ι Empty)} {olds : List Value} (start : Nat)
    (hlength : olds.length = items.length)
    (hitems : ∀ (i : Nat) item old, items[i]? = some item → olds[i]? = some old →
      item.overwriteWith defs.layout self selfOver old = do
        let v ← item.readWith defs.layout self
        return defs.merge item old v) :
    Schema.overwriteAll defs.layout self selfOver items olds = (do
      let vs ← Schema.readAll defs.layout self items
      return Schema.mergeFields (fun name v old => defs.merge (.ref name) old v) (fun _ => true) start
        items olds vs) := by
  induction items generalizing olds start with
  | nil =>
    obtain rfl := List.length_eq_zero_iff.1 hlength
    rfl
  | cons item items ih =>
    obtain ⟨old, olds, rfl⟩ := List.exists_cons_of_length_eq_add_one hlength
    have hrest := ih (start + 1) (Nat.succ.inj hlength) fun i => hitems (i + 1)
    rw [Schema.overwriteAll, Schema.readAll, hitems 0 item old rfl rfl, hrest]
    simp only [bind_assoc, pure_bind, Schema.mergeFields, if_true, mergeWith_merge]

/-- A record is read over as a whole, or, if it has uncoded fields, one coded field after the other. -/
theorem overwrites_record {labels : Labels} {selection : Selection} {fields : List (Schema ι Empty)}
    (hfields : ∀ field ∈ (Schema.record labels selection fields).parts, defs.Overwrites field
      (field.readWith defs.layout self) (field.overwriteWith defs.layout self selfOver)) :
    defs.Overwrites (.record labels selection fields)
      ((Schema.record labels selection fields).readWith defs.layout self)
      ((Schema.record labels selection fields).overwriteWith defs.layout self selfOver) := by
  intro hwell old htype
  cases old with
  | list olds =>
    have hadmissible := hwell _ (.refl _)
    by_cases hlength : selection.order.length = fields.length
    · have hcoded := (Schema.length_order_eq_iff hadmissible).1 hlength
      rw [Schema.overwriteWith, Schema.readWith]
      simp only [if_pos hlength, bind_assoc, pure_bind, merge_record_of_fullyCoded defs hcoded]
    · have hcoded := mt (Schema.length_order_eq_iff hadmissible).2 hlength
      have hsteps : ∀ i ∈ selection.order,
          Schema.overwriteAt defs.layout self selfOver fields olds i = do
            let v ← Schema.readNth defs.layout self fields i
            return defs.mergeAt fields olds i v := by
        intro i hi
        have hlt := hadmissible.2 i hi
        have holds : i < olds.length := (htype _ _ (.refl _ _)).symm ▸ hlt
        have hfield : fields[i]? = some fields[i] := List.getElem?_eq_getElem hlt
        have hold : olds[i]? = some olds[i] := List.getElem?_eq_getElem holds
        have hpart : fields[i] ∈ (Schema.record labels selection fields).parts :=
          Schema.mem_parts_record hi hfield
        simp only [Schema.overwriteAt_eq, Schema.readNth_eq, mergeAt, hfield, hold]
        exact hfields _ hpart (forall_occurs_part hwell hpart) _
          (forall_within_part htype (.field hi hfield hold))
      rw [Schema.overwriteWith, Schema.readWith]
      simp only [if_neg hlength, Value.items, mapM_eq_zipWith hsteps, bind_assoc, pure_bind]
      refine Step.bind_congr_of_ok fun hvs => ?_
      rw [merge_place hadmissible hcoded (htype _ _ (.refl _ _)) (Step.length_of_mapM hvs)]
  | _ => cases htype _ _ (.refl _ _)

/-- Reading over a value of a schema when recursive types are read over in this way. -/
theorem overwrites_overwriteWith
    (hself : ∀ name, defs.Overwrites (.ref name) (self name) (selfOver name)) (s : Schema ι Empty) :
    defs.Overwrites s (s.readWith defs.layout self)
      (s.overwriteWith defs.layout self selfOver) := by
  induction s using Schema.partInduction with
  | step s ih =>
    have hparts : ∀ part ∈ s.parts, defs.WellFormed s → ∀ old, defs.HasType part old →
        part.overwriteWith defs.layout self selfOver old = do
          let v ← part.readWith defs.layout self
          return defs.merge part old v :=
      fun part hpart hwell => ih part hpart (forall_occurs_part hwell hpart)
    cases s with
    | sequence kind item =>
      cases kind with
      | vector =>
        intro hwell old htype
        cases old with
        | list olds =>
          have hitems : ∀ old ∈ olds, item.overwriteWith defs.layout self selfOver old = do
              let v ← item.readWith defs.layout self
              return defs.merge item old v := fun old hold =>
            hparts item (by simp [Schema.parts]) hwell old (forall_within_part htype (.item hold))
          rw [Schema.overwriteWith, Schema.readWith]
          simp only [Value.items, overwriteMany_eq _ hitems, bind_assoc, pure_bind, merge_vector]
          rfl
        | _ => cases htype _ _ (.refl _ _)
      | _ => exact .of_fresh (fun _ => rfl) fun old v => by rw [merge_eq]; rfl
    | array count item =>
      intro hwell old htype
      cases old with
      | list olds =>
        have hitems : ∀ old ∈ olds, item.overwriteWith defs.layout self selfOver old = do
            let v ← item.readWith defs.layout self
            return defs.merge item old v := fun old hold =>
          hparts item (by simp [Schema.parts]) hwell old (forall_within_part htype (.element hold))
        rw [Schema.overwriteWith, Schema.readWith]
        simp only [Value.items, overwriteMany_eq _ hitems, bind_assoc, pure_bind, merge_array]
      | _ => cases htype _ _ (.refl _ _)
    | tuple items =>
      intro hwell old htype
      cases old with
      | list olds =>
        rw [Schema.overwriteWith, Schema.readWith]
        dsimp only [Value.items]
        rw [overwriteAll_eq 0 (htype _ _ (.refl _ _)) fun i item old hitem hold => ?_]
        · simp only [bind_assoc, pure_bind, merge_tuple]
          rfl
        · exact hparts item (List.mem_of_getElem? hitem) hwell old
            (forall_within_part htype (.component hitem hold))
      | _ => cases htype _ _ (.refl _ _)
    | record labels selection fields => exact overwrites_record ih
    | ref name => exact hself name
    | weak writeOnly _ => exact writeOnly.elim
    | encoded writeOnly => exact writeOnly.elim
    | _ => exact .of_fresh (fun _ => rfl) fun old v => by rw [merge_eq]; rfl

theorem overwrites_overwriteRef (depth : Nat) (name : ι) :
    defs.Overwrites (.ref name) (defs.readRef depth name) (defs.overwriteRef depth name) := by
  induction depth generalizing name with
  | zero =>
    intro _ old _
    rfl
  | succ depth ih =>
    intro hwell old htype
    rw [readRef, overwriteRef, overwrites_overwriteWith ih (defs.body name) (forall_occurs_body hwell)
      old (forall_within_part htype .body)]
    simp only [merge_ref]

theorem overwrite_eq {s : Schema ι Empty} {old : Value} (hwell : defs.WellFormed s)
    (htype : defs.HasType s old) : defs.overwrite s old = do
      let v ← defs.read s
      return defs.merge s old v := by
  unfold overwrite read
  simp only [bind_assoc,
    overwrites_overwriteWith (defs.overwrites_overwriteRef _) s hwell old htype]

end Definitions

end Scale
