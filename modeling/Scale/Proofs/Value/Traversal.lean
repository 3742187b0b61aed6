import Scale.Encode
import Scale.Proofs.Value.Parts

namespace Scale

/-- A function of a schema and a value that depends on recursive types only through the parts of the
    value. -/
structure Traversal (ι ω X : Type) where
  /-- The function, given the one for recursive types. -/
  run : (ι → Value → X) → Schema ι ω → Value → X
  /-- What it gives for a value that is nested too deeply. -/
  exhausted : X
  run_ref : ∀ self name v, run self (.ref name) v = self name v
  run_congr : ∀ {self self' : ι → Value → X} (defs : Definitions ι ω) (s : Schema ι ω) (v : Value),
    (∀ name, s ≠ .ref name) →
    (∀ t w, defs.PartOf s v t w → run self t w = run self' t w) → run self s v = run self' s v

namespace Traversal

variable {ι ω X : Type} (traversal : Traversal ι ω X) (defs : Definitions ι ω)

/-- The function on recursive types, for values nested no deeper than `depth`. -/
def runRef : Nat → ι → Value → X
  | 0, _, _ => traversal.exhausted
  | depth + 1, name, v => traversal.run (runRef depth) (defs.body name) v

/-- The function on values of any depth. -/
def full (s : Schema ι ω) (v : Value) : X :=
  traversal.run (traversal.runRef defs v.depth) s v

/-- A bound on the depth of calls that suffices for a value of a schema. -/
def sufficient (s : Schema ι ω) (v : Value) : Nat :=
  if s.guarded then v.depth - 1 else v.depth

theorem sufficient_le_depth (s : Schema ι ω) (v : Value) : sufficient s v ≤ v.depth := by
  unfold sufficient
  split <;> omega

variable {defs} in
theorem sufficient_part_le {s t : Schema ι ω} {v w : Value} (hpart : defs.PartOf s v t w) :
    sufficient t w ≤ sufficient s v := by
  obtain hdepth | ⟨rfl, ⟨hs, ht⟩ | ⟨hguarded, _⟩⟩ := hpart.decreases
  · have hpart := sufficient_le_depth t w
    have hwhole : v.depth - 1 ≤ sufficient s v := by
      unfold sufficient
      split <;> omega
    omega
  · simp only [sufficient, hs, ht]
    exact Nat.sub_le _ _
  · simp only [sufficient, hguarded]
    exact Nat.le_refl _

/-- A sufficient bound may be replaced by any other. -/
theorem run_runRef_eq {depth depth' : Nat} (s : Schema ι ω) (v : Value)
    (hdepth : sufficient s v ≤ depth) (hdepth' : sufficient s v ≤ depth') :
    traversal.run (traversal.runRef defs depth) s v =
      traversal.run (traversal.runRef defs depth') s v := by
  induction s, v using defs.valueInduction generalizing depth depth' with
  | step s v ih =>
    by_cases href : ∃ name, s = .ref name
    -- Only a name uses up a call. What it stands for is guarded, so that one call less suffices.
    · obtain ⟨name, rfl⟩ := href
      have hpos := v.depth_pos
      have hbody : sufficient (defs.body name) v = v.depth - 1 := by
        rw [sufficient, if_pos (defs.guarded_body name)]
      change v.depth ≤ depth at hdepth
      change v.depth ≤ depth' at hdepth'
      obtain ⟨shallow, rfl⟩ : ∃ shallow, depth = shallow + 1 := ⟨depth - 1, by omega⟩
      obtain ⟨shallow', rfl⟩ : ∃ shallow, depth' = shallow + 1 := ⟨depth' - 1, by omega⟩
      rw [traversal.run_ref, traversal.run_ref]
      exact ih _ v .body (by omega) (by omega)
    · refine traversal.run_congr defs s v (fun name hs => href ⟨name, hs⟩) fun t w hpart => ?_
      have hle := sufficient_part_le hpart
      exact ih t w hpart (Nat.le_trans hle hdepth) (Nat.le_trans hle hdepth')

/-- A recursive type is what its name stands for. -/
theorem full_ref (name : ι) (v : Value) :
    traversal.full defs (.ref name) v = traversal.full defs (defs.body name) v := by
  obtain ⟨depth, hdepth⟩ : ∃ depth, v.depth = depth + 1 :=
    ⟨v.depth - 1, (Nat.succ_pred_eq_of_pos v.depth_pos).symm⟩
  have hbody : sufficient (defs.body name) v = depth := by
    rw [sufficient, if_pos (defs.guarded_body name), hdepth, Nat.add_sub_cancel]
  rw [full, full, traversal.run_ref, hdepth]
  exact traversal.run_runRef_eq defs _ v (Nat.le_of_eq hbody) (by omega)

/-- The function is given by its own values on recursive types. -/
theorem full_eq (s : Schema ι ω) (v : Value) :
    traversal.full defs s v = traversal.run (fun name => traversal.full defs (.ref name)) s v := by
  have hstep : ∀ depth, sufficient s v ≤ depth → traversal.run (traversal.runRef defs depth) s v =
      traversal.run (fun name => traversal.full defs (.ref name)) s v := by
    induction s, v using defs.valueInduction with
    | step s v ih =>
      intro depth hdepth
      by_cases href : ∃ name, s = .ref name
      · obtain ⟨name, rfl⟩ := href
        rw [traversal.run_ref (fun name => traversal.full defs (.ref name))]
        exact traversal.run_runRef_eq defs _ v hdepth (Nat.le_refl v.depth)
      · refine traversal.run_congr defs s v (fun name hs => href ⟨name, hs⟩) fun t w hpart => ?_
        exact ih t w hpart depth (Nat.le_trans (sufficient_part_le hpart) hdepth)
  exact hstep v.depth (sufficient_le_depth s v)

end Traversal

end Scale
