import Scale.Proofs.Reading.Leads

namespace Scale

namespace Reader

variable {α β : Type} {n : Nat}

/-- Two steps do the same on every source with fewer than `n` bytes left, and only ever take bytes
    off its front. -/
structure Agrees (n : Nat) (step step' : Reader α) : Prop where
  takesPrefix : TakesPrefix step
  eq : ∀ {source : Source}, source.bytes.length < n → step source = step' source

theorem Agrees.refl {step : Reader α} (hstep : TakesPrefix step) : Agrees n step step :=
  ⟨hstep, fun _ => rfl⟩

theorem Agrees.bind {step step' : Reader α} {next next' : α → Reader β} (hstep : Agrees n step step')
    (hnext : ∀ a, Agrees n (next a) (next' a)) : Agrees n (step >>= next) (step' >>= next') where
  takesPrefix := hstep.takesPrefix.bind fun a => (hnext a).takesPrefix
  eq := by
    intro source hlt
    have heq := hstep.eq hlt
    cases hrun : step source with
    | error e middle => rw [Step.bind_of_error hrun, Step.bind_of_error (heq ▸ hrun)]
    | ok a middle =>
      have hle := hstep.takesPrefix.length_le hrun
      rw [Step.bind_of_ok hrun, Step.bind_of_ok (heq ▸ hrun)]
      exact (hnext a).eq (Nat.lt_of_le_of_lt hle hlt)

/-- After a step that has taken a byte there is a byte less to agree on. -/
theorem Agrees.bind_of_leads {step step' : Reader α} {next next' : α → Reader β}
    (hstep : Agrees (n + 1) step step') (hleads : Leads step)
    (hnext : ∀ a, Agrees n (next a) (next' a)) :
    Agrees (n + 1) (step >>= next) (step' >>= next') where
  takesPrefix := hstep.takesPrefix.bind fun a => (hnext a).takesPrefix
  eq := by
    intro source hlt
    have heq := hstep.eq hlt
    cases hrun : step source with
    | error e middle => rw [Step.bind_of_error hrun, Step.bind_of_error (heq ▸ hrun)]
    | ok a middle =>
      have hless := hleads hrun
      rw [Step.bind_of_ok hrun, Step.bind_of_ok (heq ▸ hrun)]
      exact (hnext a).eq (by omega)

theorem agrees_congruence (n : Nat) : Congruence fun {_} step step' => Agrees n step step' where
  pure a := Agrees.refl (TakesPrefix.pure a)
  throw e := Agrees.refl (TakesPrefix.throw e)
  bind := Agrees.bind
  takeByte := Agrees.refl takesPrefix_congruence.takeByte
  read amount := Agrees.refl (takesPrefix_congruence.read amount)
  need amount := Agrees.refl (takesPrefix_congruence.need amount)
  scheme := Agrees.refl takesPrefix_congruence.scheme

/-- A step that takes a byte, and after it a run of items that agree. -/
theorem Agrees.bind_leads {step : Reader α} {next next' : α → Reader β} (hstep : Leads step)
    (htakes : TakesPrefix step) (hnext : ∀ a, Agrees n (next a) (next' a)) :
    Agrees (n + 1) (step >>= next) (step >>= next') :=
  (Agrees.refl htakes).bind_of_leads hstep hnext

/-- One after the other, steps agree on one more byte than after the first byte when no unguarded
    step comes before it. -/
theorem Agrees.mapM_of_guarded {step step' : α → Reader β} {items : List α}
    (flags : α → Option (Bool × Bool))
    (hguarded : Schema.guardedSteps (items.filterMap flags) = true)
    (hsteps : ∀ a ∈ items, Agrees n (step a) (step' a))
    (hflags : ∀ a ∈ items, ∀ leads guarded, flags a = some (leads, guarded) →
      (guarded = true → Agrees (n + 1) (step a) (step' a)) ∧ (leads = true → Leads (step a)))
    (hunflagged : ∀ a ∈ items, flags a = none → Agrees (n + 1) (step a) (step' a)) :
    Agrees (n + 1) (items.mapM step) (items.mapM step') := by
  induction items with
  | nil => exact Agrees.refl (TakesPrefix.pure [])
  | cons a items ih =>
    have hrest : Schema.guardedSteps (items.filterMap flags) = true →
        Agrees (n + 1) (items.mapM step) (items.mapM step') := fun hguarded =>
      ih hguarded (fun b hb => hsteps b (by simp [hb])) (fun b hb => hflags b (by simp [hb]))
        fun b hb => hunflagged b (by simp [hb])
    rw [List.mapM_cons, List.mapM_cons]
    cases hflag : flags a with
    | none =>
      rw [List.filterMap_cons_none hflag] at hguarded
      exact (hunflagged a (by simp) hflag).bind fun value =>
        (agrees_congruence (n + 1)).map (value :: ·) (hrest hguarded)
    | some flag =>
      obtain ⟨leads, guarded⟩ := flag
      obtain ⟨hagrees, hleads⟩ := hflags a (by simp) leads guarded hflag
      rw [List.filterMap_cons_some hflag, Schema.guardedSteps, Bool.and_eq_true, Bool.or_eq_true]
        at hguarded
      obtain ⟨hfirst, hlead | hlater⟩ := hguarded
      · refine (hagrees hfirst).bind_of_leads (hleads hlead) fun value => ?_
        exact (agrees_congruence n).map (value :: ·)
          ((agrees_congruence n).mapM fun b hb => hsteps b (by simp [hb]))
      · exact (hagrees hfirst).bind fun value =>
          (agrees_congruence (n + 1)).map (value :: ·) (hrest hlater)

end Reader

namespace Schema

open Reader

variable {ι : Type} {named : ι → Layout} {self self' : ι → Reader Value} {n : Nat}

theorem steps_eq_map (items : List (Schema ι Empty)) :
    steps items = items.map fun item => (item.leads, item.guarded) := by
  induction items with
  | nil => rfl
  | cons item items ih => rw [steps, List.map_cons, ih]

/-- A guarded schema comes to a recursive type only after a byte. -/
theorem agrees_readWith_of_guarded (hself : ∀ name, Agrees n (self name) (self' name))
    {s : Schema ι Empty} (hguarded : s.guarded = true) :
    Agrees (n + 1) (s.readWith named self) (s.readWith named self') := by
  have htakes : ∀ t : Schema ι Empty, TakesPrefix (t.readWith named self) :=
    TakesPrefix.readWith fun name => (hself name).takesPrefix
  have hall : ∀ t : Schema ι Empty, Agrees n (t.readWith named self) (t.readWith named self') :=
    (agrees_congruence n).readWith hself
  have hleads : ∀ {t : Schema ι Empty}, t.leads = true → Leads (t.readWith named self) :=
    leads_readWith fun name => (hself name).takesPrefix
  have hcounted : ∀ itemSize limit {α β : Type} {item item' : Reader α} (f : List α → β),
      Agrees n item item' → Agrees (n + 1)
        (takeItemCount itemSize limit >>= fun count => readMany count item >>= fun vs => pure (f vs))
        (takeItemCount itemSize limit >>= fun count => readMany count item' >>= fun vs => pure (f vs)) := by
    intro itemSize limit α β item item' f hitem
    refine Agrees.bind_leads (leads_takeItemCount _ _) (takesPrefix_congruence.takeItemCount _ _) ?_
    exact fun count => (agrees_congruence n).map f ((agrees_congruence n).readMany hitem count)
  -- After a byte has been taken it is enough to agree on `n` bytes, which all parts do. Before that
  -- there are only parts that are guarded themselves.
  induction s using partInduction with
  | step s ih =>
    cases s with
    | option content =>
      rw [readWith, readWith]
      split
      · exact Agrees.refl takesPrefix_congruence.takePacked
      · refine Agrees.bind_leads leads_takeBool takesPrefix_congruence.takeBool fun there => ?_
        cases there with
        | true => exact (agrees_congruence n).map Value.present (hall content)
        | false => exact Agrees.refl (TakesPrefix.pure _)
    | result success failure =>
      refine Agrees.bind_leads (leads_takeTag 2) (takesPrefix_congruence.takeTag 2) fun tag => ?_
      cases tag with
      | zero => exact (agrees_congruence n).map (Value.tagged 0) (hall success)
      | succ tag => exact (agrees_congruence n).map (Value.tagged 1) (hall failure)
    | sequence kind item => exact hcounted _ _ Value.list (hall item)
    | set keys item => exact hcounted _ _ keys.order.set (hall item)
    | map keys key value =>
      exact hcounted _ _ keys.order.map ((hall key).bind fun k =>
        (agrees_congruence n).map (k, ·) (hall value))
    | array count item =>
      refine (agrees_congruence (n + 1)).map Value.list ?_
      exact (agrees_congruence (n + 1)).readMany (ih item (by simp [parts]) hguarded) count
    | tuple items =>
      rw [readWith, readWith, readAll_eq_mapM, readAll_eq_mapM]
      refine (agrees_congruence (n + 1)).map Value.list ?_
      refine Agrees.mapM_of_guarded (fun item => some (item.leads, item.guarded)) ?_
        (fun item _ => hall item) ?_ ?_
      · rw [guarded, steps_eq_map, ← List.filterMap_eq_map] at hguarded
        exact hguarded
      · rintro item hitem _ _ ⟨⟩
        exact ⟨fun hitemGuarded => ih item hitem hitemGuarded, hleads⟩
      · intro item _ hnone
        cases hnone
    | pointer pointee => exact ih pointee (by simp [parts]) hguarded
    | weak writeOnly _ => exact writeOnly.elim
    | encoded writeOnly => exact writeOnly.elim
    | record labels selection fields =>
      rw [guarded] at hguarded
      refine (agrees_congruence (n + 1)).map
        (fun vs => Value.list (Value.place selection.order vs (selection.blank fields.length))) ?_
      refine Agrees.mapM_of_guarded (fun i => (steps fields)[i]?) hguarded
        (fun i _ => (agrees_congruence n).readNth fun field _ => hall field) ?_ ?_
      · intro i hi leads guarded hflag
        rw [steps_eq_map, List.getElem?_map] at hflag
        rw [readNth_eq, readNth_eq]
        cases hget : fields[i]? with
        | none => simp [hget] at hflag
        | some field =>
          rw [hget] at hflag
          cases hflag
          exact ⟨fun hfieldGuarded => ih field (mem_parts_record hi hget) hfieldGuarded, hleads⟩
      · intro i hi hflag
        rw [steps_eq_map, List.getElem?_map] at hflag
        rw [readNth_eq, readNth_eq]
        cases hget : fields[i]? with
        | none => exact Agrees.refl (TakesPrefix.throw _)
        | some field => simp [hget] at hflag
    | sum names alternatives =>
      refine Agrees.bind_leads (leads_takeTag _) (takesPrefix_congruence.takeTag _) fun tag => ?_
      exact (agrees_congruence n).map (Value.tagged tag)
        ((agrees_congruence n).readNth fun alternative _ => hall alternative)
    | ref name => cases hguarded
    | _ => exact Agrees.refl (htakes _)

end Schema

namespace Definitions

open Reader

variable {ι : Type} (defs : Definitions ι Empty)

/-- Bounds above the number of bytes left make no difference. -/
theorem agrees_readRef (n : Nat) {depth depth' : Nat} (hdepth : n ≤ depth) (hdepth' : n ≤ depth')
    (name : ι) : Agrees n (defs.readRef depth name) (defs.readRef depth' name) := by
  induction n generalizing depth depth' name with
  | zero => exact ⟨defs.takesPrefix_readRef depth name, fun hlt => absurd hlt (Nat.not_lt_zero _)⟩
  | succ n ih =>
    obtain ⟨fewer, rfl⟩ := Nat.exists_eq_add_of_le hdepth
    obtain ⟨fewer', rfl⟩ := Nat.exists_eq_add_of_le hdepth'
    rw [Nat.add_right_comm n 1, Nat.add_right_comm n 1, readRef, readRef]
    exact Schema.agrees_readWith_of_guarded
      (fun other => ih (Nat.le_add_right n fewer) (Nat.le_add_right n fewer') other)
      (defs.guarded_body name)

/-- A bound above the number of bytes left may be used to read any schema. -/
theorem read_eq_of_lt {s : Schema ι Empty} {source : Source} {depth : Nat}
    (hdepth : source.bytes.length < depth) :
    defs.read s source = s.readWith defs.layout (defs.readRef depth) source := by
  rw [read_apply, Source.remaining_eq]
  have hagrees := defs.agrees_readRef (source.bytes.length + 1) (Nat.le_refl _) hdepth
  exact ((agrees_congruence _).readWith hagrees s).eq (Nat.lt_succ_self _)

/-- Reading is given by what is read of recursive types. -/
theorem readWith_read (s : Schema ι Empty) :
    s.readWith defs.layout (fun name => defs.read (.ref name)) = defs.read s := by
  funext source
  have hself : ∀ name, Agrees (source.bytes.length + 1) (defs.read (.ref name))
      (defs.readRef (source.bytes.length + 1) name) := by
    intro name
    refine ⟨defs.takesPrefix_read (.ref name), fun {other} hlt => ?_⟩
    exact defs.read_eq_of_lt hlt
  rw [read_apply, Source.remaining_eq]
  exact ((agrees_congruence _).readWith hself s).eq (Nat.lt_succ_self _)

/-- A recursive type is read like what its name stands for. -/
theorem read_ref (name : ι) : defs.read (.ref name) = defs.read (defs.body name) := by
  funext source
  have hagrees : Agrees (source.bytes.length + 1)
      ((defs.body name).readWith defs.layout (defs.readRef source.bytes.length))
      ((defs.body name).readWith defs.layout (defs.readRef (source.bytes.length + 1))) :=
    Schema.agrees_readWith_of_guarded
      (fun other => defs.agrees_readRef source.bytes.length (Nat.le_refl _) (Nat.le_succ _) other)
      (defs.guarded_body name)
  rw [read_apply, read_apply, Source.remaining_eq]
  exact hagrees.eq (Nat.lt_succ_self _)

end Definitions

end Scale
