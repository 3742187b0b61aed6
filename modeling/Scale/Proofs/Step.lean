namespace Scale.Step

variable {ε σ α β : Type} {step : EStateM ε σ α} {next : α → EStateM ε σ β}

theorem bind_of_ok {s t : σ} {a : α} (hstep : step s = .ok a t) : (step >>= next) s = next a t := by
  simp only [bind, EStateM.bind, hstep]

theorem bind_of_error {s t : σ} {e : ε} (hstep : step s = .error e t) :
    (step >>= next) s = .error e t := by
  simp only [bind, EStateM.bind, hstep]

/-- A sequence succeeds when its first step does and the rest succeeds from there. -/
theorem bind_eq_ok_iff {s u : σ} {b : β} :
    (step >>= next) s = .ok b u ↔ ∃ a t, step s = .ok a t ∧ next a t = .ok b u := by
  constructor
  · intro hbind
    cases hstep : step s with
    | ok a t => exact ⟨a, t, rfl, by rwa [bind_of_ok hstep] at hbind⟩
    | error e t =>
      rw [bind_of_error hstep] at hbind
      cases hbind
  · rintro ⟨a, t, hstep, hnext⟩
    rw [bind_of_ok hstep, hnext]

@[simp] theorem throw_bind (e : ε) : ((throw e : EStateM ε σ α) >>= next) = throw e :=
  rfl

theorem pure_eq_ok_iff {s t : σ} {a b : α} :
    (pure a : EStateM ε σ α) s = .ok b t ↔ a = b ∧ s = t := by
  simp only [pure, EStateM.pure, EStateM.Result.ok.injEq]

/-- A step that ends with a function of its value leaves what it would leave without. -/
theorem map_eq_ok_iff {s t : σ} {f : α → β} {b : β} :
    (step >>= fun a => pure (f a)) s = .ok b t ↔ ∃ a, step s = .ok a t ∧ f a = b := by
  constructor
  · intro hmap
    obtain ⟨a, u, hstep, hpure⟩ := bind_eq_ok_iff.1 hmap
    obtain ⟨hvalue, rfl⟩ := pure_eq_ok_iff.1 hpure
    exact ⟨a, hstep, hvalue⟩
  · rintro ⟨a, hstep, rfl⟩
    exact bind_of_ok hstep

/-- It fails as it would fail without. -/
theorem map_eq_error_iff {s t : σ} {f : α → β} {e : ε} :
    (step >>= fun a => pure (f a)) s = .error e t ↔ step s = .error e t := by
  cases hstep : step s with
  | ok a u =>
    rw [bind_of_ok hstep]
    exact iff_of_false nofun nofun
  | error e' u =>
    rw [bind_of_error hstep]
    simp only [EStateM.Result.error.injEq]

/-- Sequences are the same when they go on in the same way from every end of their first step. -/
theorem bind_congr_of_ok {next' : α → EStateM ε σ β}
    (hnext : ∀ {s a t}, step s = .ok a t → next a t = next' a t) :
    step >>= next = step >>= next' := by
  funext s
  cases hstep : step s with
  | ok a t => rw [bind_of_ok hstep, bind_of_ok hstep, hnext hstep]
  | error e t => rw [bind_of_error hstep, bind_of_error hstep]

/-- After a first step that succeeds, the others go on from there. -/
theorem forM_cons_of_ok {run : α → EStateM ε σ PUnit} {a : α} {as : List α} {s t : σ}
    (hrun : run a s = .ok () t) : (a :: as).forM run s = as.forM run t := by
  rw [List.forM_eq_forM, List.forM_cons, ← List.forM_eq_forM]
  exact bind_of_ok hrun

theorem forM_congr {run run' : α → EStateM ε σ PUnit} {as : List α}
    (hrun : ∀ a ∈ as, run a = run' a) : as.forM run = as.forM run' := by
  induction as with
  | nil => rfl
  | cons a as ih =>
    simp only [List.forM_eq_forM, List.forM_cons] at ih ⊢
    rw [hrun a (by simp), ih fun b hb => hrun b (by simp [hb])]

theorem mapM_congr {run run' : α → EStateM ε σ β} {as : List α}
    (hrun : ∀ a ∈ as, run a = run' a) : as.mapM run = as.mapM run' := by
  induction as with
  | nil => rfl
  | cons a as ih =>
    rw [List.mapM_cons, List.mapM_cons, hrun a (by simp), ih fun b hb => hrun b (by simp [hb])]

theorem length_of_mapM {run : α → EStateM ε σ β} {as : List α} {bs : List β} {s t : σ}
    (hrun : as.mapM run s = .ok bs t) : bs.length = as.length := by
  induction as generalizing s bs with
  | nil =>
    obtain ⟨rfl, _⟩ := pure_eq_ok_iff.1 hrun
    rfl
  | cons a as ih =>
    rw [List.mapM_cons] at hrun
    obtain ⟨b, middle, _, hrest⟩ := bind_eq_ok_iff.1 hrun
    obtain ⟨others, hothers, rfl⟩ := map_eq_ok_iff.1 hrest
    rw [List.length_cons, List.length_cons, ih hothers]

/-- Runs over two lists are the same when they are at every place. -/
theorem forM_congr_of_getElem? {run : α → EStateM ε σ PUnit} {run' : β → EStateM ε σ PUnit}
    {as : List α} {bs : List β} (hlength : as.length = bs.length)
    (hrun : ∀ (i : Nat) a b, as[i]? = some a → bs[i]? = some b → run a = run' b) :
    as.forM run = bs.forM run' := by
  induction as generalizing bs with
  | nil =>
    obtain rfl := List.length_eq_zero_iff.1 hlength.symm
    rfl
  | cons a as ih =>
    obtain ⟨b, bs, rfl⟩ := List.exists_cons_of_length_eq_add_one hlength.symm
    have hrest := ih (Nat.succ.inj hlength) fun i => hrun (i + 1)
    simp only [List.forM_eq_forM, List.forM_cons] at hrest ⊢
    rw [hrun 0 a b rfl rfl, hrest]

end Scale.Step
