import Scale.Proofs.Forgetting.Equations
import Scale.Proofs.Value.Traversal

namespace Scale

namespace Value

/-- Merges each value with the old one at its place. Values without an old one stay as they are. -/
def mergeItems (merge : Value → Value → Value) : List Value → List Value → List Value
  | old :: olds, v :: vs => merge old v :: mergeItems merge olds vs
  | _, vs => vs

variable {merge merge' : Value → Value → Value} {olds vs : List Value}

@[simp] theorem mergeItems_nil : mergeItems merge [] vs = vs := by
  cases vs <;> rfl

@[simp] theorem length_mergeItems : (mergeItems merge olds vs).length = vs.length := by
  induction olds generalizing vs with
  | nil => rw [mergeItems_nil]
  | cons old olds ih =>
    cases vs with
    | nil => rfl
    | cons v vs => rw [mergeItems, List.length_cons, List.length_cons, ih]

theorem getElem?_mergeItems (i : Nat) : (mergeItems merge olds vs)[i]? =
    match olds[i]?, vs[i]? with
    | some old, some v => some (merge old v)
    | _, v => v := by
  induction olds generalizing vs i with
  | nil => rw [mergeItems_nil, List.getElem?_nil]
  | cons old olds ih =>
    cases vs with
    | nil => cases (old :: olds)[i]? <;> rfl
    | cons v vs =>
      cases i with
      | zero => rfl
      | succ i => exact ih i

/-- Old values that there are no new ones for make no difference. -/
theorem mergeItems_take {count : Nat} (hcount : vs.length ≤ count) :
    mergeItems merge (olds.take count) vs = mergeItems merge olds vs := by
  refine List.ext_getElem? fun i => ?_
  rw [getElem?_mergeItems, getElem?_mergeItems, List.getElem?_take]
  by_cases hi : i < count
  · rw [if_pos hi]
  · rw [if_neg hi, List.getElem?_eq_none (Nat.le_trans hcount (Nat.not_lt.1 hi))]
    cases olds[i]? <;> rfl

theorem mergeItems_congr (hmerge : ∀ old, ∀ v ∈ vs, merge old v = merge' old v) :
    mergeItems merge olds vs = mergeItems merge' olds vs := by
  refine List.ext_getElem? fun i => ?_
  rw [getElem?_mergeItems, getElem?_mergeItems]
  cases hold : olds[i]? with
  | none => rfl
  | some old =>
    cases hv : vs[i]? with
    | none => rfl
    | some v => exact congrArg some (hmerge old v (List.mem_of_getElem? hv))

end Value

namespace Schema

variable {ι ω : Type}

instance (s : Schema ι ω) : Decidable s.FullyCoded :=
  match s with
  | record _ selection fields => inferInstanceAs (Decidable (∀ i < fields.length, i ∈ selection.order))
  | unit | bool | int _ | wide _ | compact _ | text | blob | bits | option _ | result _ _
  | sequence _ _ | set _ _ | map _ _ _ | array _ _ | tuple _ | pointer _ | weak _ _ | encoded _
  | sum _ _ | enumeration _ | range _ | ref _ => isTrue trivial

mutual

/-- What is left of an old value, the last argument, when a value is read over it, with `self` for
    recursive types. -/
def mergeWith (self : ι → Value → Value → Value) : Schema ι ω → Value → Value → Value
  | sequence .vector item => fun
    | .list vs => fun old =>
      .list (Value.mergeItems (fun old v => mergeWith self item v old) old.items vs)
    | v => fun _ => v
  | array _ item => fun
    | .list vs => fun old =>
      .list (Value.mergeItems (fun old v => mergeWith self item v old) old.items vs)
    | v => fun _ => v
  | tuple items => fun
    | .list vs => fun old => .list (mergeFields self (fun _ => true) 0 items old.items vs)
    | v => fun _ => v
  | record labels selection fields => fun
    | .list vs => fun old =>
      if (record labels selection fields).FullyCoded then
        .list vs
      else
        .list (mergeFields self (· ∈ selection.order) 0 fields old.items vs)
    | v => fun _ => v
  | ref name => self name
  | _ => fun v _ => v

/-- Merges the fields from the position `i` on: those that are coded by their own schemas, while all
    others keep their old values. -/
def mergeFields (self : ι → Value → Value → Value) (coded : Nat → Bool) (i : Nat) :
    List (Schema ι ω) → List Value → List Value → List Value
  | s :: ss, old :: olds, v :: vs =>
    (if coded i then mergeWith self s v old else old) :: mergeFields self coded (i + 1) ss olds vs
  | _, _, vs => vs

end

variable {self self' : ι → Value → Value → Value}

theorem getElem?_mergeFields {coded : Nat → Bool} {fields : List (Schema ι ω)}
    {olds vs : List Value} (holds : olds.length = fields.length) (hvs : vs.length = fields.length)
    (start i : Nat) : (mergeFields self coded start fields olds vs)[i]? =
      match fields[i]?, olds[i]?, vs[i]? with
      | some field, some old, some v =>
        some (if coded (start + i) then field.mergeWith self v old else old)
      | _, _, _ => none := by
  induction fields generalizing olds vs start i with
  | nil =>
    obtain rfl := List.length_eq_zero_iff.1 hvs
    cases olds <;> rfl
  | cons field fields ih =>
    obtain ⟨old, olds, rfl⟩ := List.exists_cons_of_length_eq_add_one holds
    obtain ⟨v, vs, rfl⟩ := List.exists_cons_of_length_eq_add_one hvs
    cases i with
    | zero => rfl
    | succ i =>
      rw [mergeFields, List.getElem?_cons_succ, ih (Nat.succ.inj holds) (Nat.succ.inj hvs),
        Nat.add_right_comm, Nat.add_assoc]
      rfl

@[simp] theorem length_mergeFields {coded : Nat → Bool} {start : Nat} {fields : List (Schema ι ω)}
    {olds vs : List Value} :
    (mergeFields self coded start fields olds vs).length = vs.length := by
  induction fields generalizing olds vs start with
  | nil => cases olds <;> cases vs <;> rfl
  | cons field fields ih =>
    cases olds with
    | nil => cases vs <;> rfl
    | cons old olds =>
      cases vs with
      | nil => rfl
      | cons v vs => rw [mergeFields, List.length_cons, List.length_cons, ih]

theorem mergeFields_congr {coded : Nat → Bool} {fields : List (Schema ι ω)}
    {olds vs : List Value} (start : Nat)
    (hfields : ∀ (i : Nat) field v, coded (start + i) = true → fields[i]? = some field →
      vs[i]? = some v → field.mergeWith self v = field.mergeWith self' v) :
    mergeFields self coded start fields olds vs = mergeFields self' coded start fields olds vs := by
  induction fields generalizing olds vs start with
  | nil => cases olds <;> cases vs <;> rfl
  | cons field fields ih =>
    cases olds with
    | nil => rfl
    | cons old olds =>
      cases vs with
      | nil => rfl
      | cons v vs =>
        have hrest : mergeFields self coded (start + 1) fields olds vs =
            mergeFields self' coded (start + 1) fields olds vs := by
          refine ih (start + 1) fun i other w hi => ?_
          rw [Nat.add_assoc, Nat.add_comm 1] at hi
          exact hfields (i + 1) other w hi
        rw [mergeFields, mergeFields, hrest]
        split
        · rw [hfields 0 field v ‹_› rfl rfl]
        · rfl

theorem mergeWith_congr (defs : Definitions ι ω) (s : Schema ι ω) (v : Value)
    (href : ∀ name, s ≠ .ref name)
    (hparts : ∀ t w, defs.PartOf s v t w → t.mergeWith self w = t.mergeWith self' w) :
    s.mergeWith self v = s.mergeWith self' v := by
  cases s with
  | sequence kind item =>
    cases kind with
    | vector =>
      cases v with
      | list vs =>
        funext old
        refine congrArg Value.list (Value.mergeItems_congr fun old w hw => ?_)
        rw [hparts item w (.item hw)]
      | _ => rfl
    | _ => rfl
  | array count item =>
    cases v with
    | list vs =>
      funext old
      refine congrArg Value.list (Value.mergeItems_congr fun old w hw => ?_)
      rw [hparts item w (.element hw)]
    | _ => rfl
  | tuple items =>
    cases v with
    | list vs =>
      funext old
      refine congrArg Value.list (mergeFields_congr 0 fun i item w _ hitem hw => ?_)
      exact hparts item w (.component hitem hw)
    | _ => rfl
  | record labels selection fields =>
    cases v with
    | list vs =>
      funext old
      rw [mergeWith, mergeWith]
      dsimp only
      split
      · rfl
      · refine congrArg Value.list (mergeFields_congr 0 fun i field w hi hfield hw => ?_)
        rw [Nat.zero_add] at hi
        exact hparts field w (.field (of_decide_eq_true hi) hfield hw)
    | _ => rfl
  | ref name => exact absurd rfl (href name)
  | _ => rfl

end Schema

/-- Merging as a function that follows the schema of the value that is read. -/
def Traversal.merging (ι ω : Type) : Traversal ι ω (Value → Value) where
  run := Schema.mergeWith
  exhausted := id
  run_ref self name v := by rw [Schema.mergeWith]
  run_congr := Schema.mergeWith_congr

namespace Definitions

variable {ι ω : Type} (defs : Definitions ι ω)

/-- What an old value becomes when `v` is read over it. -/
def merge (s : Schema ι ω) (old v : Value) : Value :=
  (Traversal.merging ι ω).full defs s v old

theorem mergeWith_merge (s : Schema ι ω) (v : Value) :
    s.mergeWith (fun name v old => defs.merge (.ref name) old v) v = fun old => defs.merge s old v :=
  ((Traversal.merging ι ω).full_eq defs s v).symm

theorem merge_ref (name : ι) (old v : Value) :
    defs.merge (.ref name) old v = defs.merge (defs.body name) old v :=
  congrFun ((Traversal.merging ι ω).full_ref defs name v) old

theorem merge_eq (s : Schema ι ω) (old v : Value) :
    defs.merge s old v = s.mergeWith (fun name v old => defs.merge (.ref name) old v) v old :=
  (congrFun (defs.mergeWith_merge s v) old).symm

theorem merge_vector (item : Schema ι ω) (old : Value) (vs : List Value) :
    defs.merge (.sequence .vector item) old (.list vs) =
      .list (Value.mergeItems (defs.merge item) old.items vs) := by
  rw [merge_eq, Schema.mergeWith]
  simp only [mergeWith_merge]

theorem merge_array (count : Nat) (item : Schema ι ω) (old : Value) (vs : List Value) :
    defs.merge (.array count item) old (.list vs) =
      .list (Value.mergeItems (defs.merge item) old.items vs) := by
  rw [merge_eq, Schema.mergeWith]
  simp only [mergeWith_merge]

/-- The fields of a product, each merged with the old one at its place when it is coded, while all
    others are the old ones. -/
def mergeAll (coded : Nat → Bool) (fields : List (Schema ι ω)) (olds vs : List Value) : List Value :=
  Schema.mergeFields (fun name v old => defs.merge (.ref name) old v) coded 0 fields olds vs

@[simp] theorem length_mergeAll {coded : Nat → Bool} {fields : List (Schema ι ω)}
    {olds vs : List Value} : (defs.mergeAll coded fields olds vs).length = vs.length :=
  Schema.length_mergeFields

theorem getElem?_mergeAll {coded : Nat → Bool} {fields : List (Schema ι ω)} {olds vs : List Value}
    (holds : olds.length = fields.length) (hvs : vs.length = fields.length) (i : Nat) :
    (defs.mergeAll coded fields olds vs)[i]? =
      match fields[i]?, olds[i]?, vs[i]? with
      | some field, some old, some v => some (if coded i then defs.merge field old v else old)
      | _, _, _ => Option.none := by
  refine (Schema.getElem?_mergeFields holds hvs 0 i).trans ?_
  simp only [mergeWith_merge, Nat.zero_add]

/-- A field after the merge comes from the old and the new field at its place. -/
theorem exists_of_mergeAll {coded : Nat → Bool} {fields : List (Schema ι ω)} {olds vs : List Value}
    (holds : olds.length = fields.length) (hvs : vs.length = fields.length) {i : Nat}
    {field : Schema ι ω} {v w : Value} (hfield : fields[i]? = some field) (hv : vs[i]? = some v)
    (hw : (defs.mergeAll coded fields olds vs)[i]? = some w) :
    ∃ old, olds[i]? = some old ∧ w = if coded i then defs.merge field old v else old := by
  have hlt : i < olds.length := holds ▸ (List.getElem?_eq_some_iff.1 hfield).1
  have hold : olds[i]? = some olds[i] := List.getElem?_eq_getElem hlt
  rw [defs.getElem?_mergeAll holds hvs, hfield, hold, hv] at hw
  exact ⟨_, hold, (Option.some.inj hw).symm⟩

theorem merge_tuple (items : List (Schema ι ω)) (olds vs : List Value) :
    defs.merge (.tuple items) (.list olds) (.list vs) =
      .list (defs.mergeAll (fun _ => true) items olds vs) := by
  rw [merge_eq, Schema.mergeWith]
  rfl

theorem merge_record_of_fullyCoded {labels : Labels} {selection : Selection}
    {fields : List (Schema ι ω)} (hcoded : (Schema.record labels selection fields).FullyCoded)
    (old : Value) (vs : List Value) :
    defs.merge (.record labels selection fields) old (.list vs) = .list vs := by
  rw [merge_eq, Schema.mergeWith]
  exact if_pos hcoded

/-- A record with uncoded fields keeps these, and the others are merged one by one. -/
theorem merge_record {labels : Labels} {selection : Selection} {fields : List (Schema ι ω)}
    (hcoded : ¬ (Schema.record labels selection fields).FullyCoded) (olds vs : List Value) :
    defs.merge (.record labels selection fields) (.list olds) (.list vs) =
      .list (defs.mergeAll (· ∈ selection.order) fields olds vs) := by
  rw [merge_eq, Schema.mergeWith]
  exact if_neg hcoded

end Definitions

end Scale
