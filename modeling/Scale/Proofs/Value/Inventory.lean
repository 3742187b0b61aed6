import Mathlib.Algebra.BigOperators.Ring.List
import Mathlib.Algebra.Order.BigOperators.Group.List
import Mathlib.Algebra.Order.Ring.Nat
import Scale.Proofs.Writing.Failures

namespace Scale.Definitions

section

variable {ι ω : Type} (defs : Definitions ι ω)

/-- The value and all that is within it, each with its schema. -/
def inventory (s : Schema ι ω) (v : Value) : List (Schema ι ω × Value) :=
  (s, v) :: (defs.components s v).attach.flatMap fun part => inventory part.1.1 part.1.2
termination_by rank s v
decreasing_by exact (partOf_of_mem_components part.2).rank_lt

theorem inventory_eq (s : Schema ι ω) (v : Value) : defs.inventory s v =
    (s, v) :: (defs.components s v).flatMap fun part => defs.inventory part.1 part.2 := by
  have hattach := List.flatMap_map (f := Subtype.val)
    (g := fun part => defs.inventory part.1 part.2) (l := (defs.components s v).attach)
  rw [List.attach_map_subtype_val] at hattach
  rw [inventory, hattach]

/-- The sum over all that is within a value. -/
def total (amount : Schema ι ω → Value → Nat) (s : Schema ι ω) (v : Value) : Nat :=
  ((defs.inventory s v).map fun entry => amount entry.1 entry.2).sum

theorem total_eq (amount : Schema ι ω → Value → Nat) (s : Schema ι ω) (v : Value) :
    defs.total amount s v = amount s v +
      ((defs.components s v).map fun part => defs.total amount part.1 part.2).sum := by
  rw [total, inventory_eq, List.map_cons, List.sum_cons, List.map_flatMap, List.flatMap_def,
    List.sum_flatten, List.map_map]
  rfl

theorem total_mul (amount : Schema ι ω → Value → Nat) (factor : Nat) (s : Schema ι ω) (v : Value) :
    defs.total (fun t w => amount t w * factor) s v = defs.total amount s v * factor :=
  List.sum_map_mul_right ..

end

variable {ι : Type} {defs : Definitions ι Empty} {s t : Schema ι Empty} {v w : Value}

/-- Without weak pointers the components of a value are just its parts. -/
theorem mem_components_iff : (t, w) ∈ defs.components s v ↔ defs.PartOf s v t w := by
  refine ⟨partOf_of_mem_components, fun hpart => ?_⟩
  cases hpart with
  | content => exact List.mem_singleton_self _
  | success => exact List.mem_singleton_self _
  | failure => exact List.mem_singleton_self _
  | item hmem => exact List.mem_map_of_mem hmem
  | member hmem => exact List.mem_map_of_mem hmem
  | key hentry => exact List.mem_flatMap.2 ⟨_, hentry, by simp⟩
  | value hentry => exact List.mem_flatMap.2 ⟨_, hentry, by simp⟩
  | element hmem => exact List.mem_map_of_mem hmem
  | component hitem hvalue =>
    exact List.mem_of_getElem? (List.getElem?_zip_eq_some.2 ⟨hitem, hvalue⟩)
  | pointee => exact List.mem_singleton_self _
  | target => rename_i writeOnly; exact writeOnly.elim
  | field hi hfield hvalue => exact List.mem_filterMap.2 ⟨_, hi, by rw [hfield, hvalue]⟩
  | alternative halternative =>
    exact Option.mem_toList.2 (Option.map_eq_some_iff.2 ⟨_, halternative, rfl⟩)
  | body => exact List.mem_singleton_self _

theorem mem_inventory_iff : (t, w) ∈ defs.inventory s v ↔ defs.Within s v t w := by
  constructor
  · intro hmem
    induction s, v using defs.valueInduction with
    | step s v ih =>
      rw [inventory_eq] at hmem
      rcases List.mem_cons.1 hmem with heq | hmem
      · obtain ⟨rfl, rfl⟩ := Prod.mk.inj heq
        exact .refl _ _
      · obtain ⟨⟨u, x⟩, hcomponent, hmem⟩ := List.mem_flatMap.1 hmem
        have hpart := partOf_of_mem_components hcomponent
        exact .step hpart (ih u x hpart hmem)
  · intro hwithin
    induction hwithin with
    | refl s v =>
      rw [inventory_eq]
      exact List.mem_cons_self ..
    | step hpart _ ih =>
      rw [inventory_eq]
      exact List.mem_cons_of_mem _ (List.mem_flatMap.2 ⟨_, mem_components_iff.2 hpart, ih⟩)

theorem total_le_total {amount bound : Schema ι Empty → Value → Nat}
    (hle : ∀ t w, defs.Within s v t w → amount t w ≤ bound t w) :
    defs.total amount s v ≤ defs.total bound s v :=
  List.sum_le_sum fun entry hentry => hle entry.1 entry.2 (mem_inventory_iff.1 hentry)

end Scale.Definitions
