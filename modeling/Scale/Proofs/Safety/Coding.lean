import Scale.Proofs.Overwriting.Agreement
import Scale.Proofs.Safety.Overwriting
import Scale.Proofs.Safety.Writing

namespace Scale

theorem Leaf.fault_ne_illTyped {scheme : Scheme} {leaf : Leaf} {e : EncodeError}
    (hfault : leaf.fault scheme = some e) : e ≠ .illTyped := by
  rintro rfl
  cases leaf with
  | number n =>
    rw [fault] at hfault
    split at hfault
    · cases hfault
    · split at hfault <;> cases hfault
  | dangling => cases hfault

/-- A value of its type is never refused for not being one. -/
theorem Definitions.ne_illTyped_of_write {ι ω : Type} {defs : Definitions ι ω} {s : Schema ι ω}
    {v : Value} {sink final : Sink} {e : EncodeError} (hwell : defs.WellFormed s) (hvalue : defs.Writable s v)
    (hrun : defs.write s v sink = .error e final) : e ≠ .illTyped := by
  have hverdict := (defs.uniform_write s v).verdict_of_error hrun
  rw [verdict_write_eq_findSome? hwell hvalue] at hverdict
  obtain ⟨leaf, _, hfault⟩ := List.exists_of_findSome?_eq_some hverdict
  exact Leaf.fault_ne_illTyped hfault

namespace Checked

/-- Neither reading nor reading over a value is ever at fault: the checked operations do what the plain
    ones do on every source, and end with a value or with an error of decoding. Nor is writing a value,
    to any sink. -/
theorem coding_never_faults :
    (∀ {ι : Type} (defs : Definitions ι Empty) (s : Schema ι Empty), defs.WellFormed s →
      (read defs s = lift (defs.read s) ∧ Answers (read defs s)) ∧
      ∀ old, defs.HasType s old →
        overwrite defs s old = lift (defs.overwrite s old) ∧ Answers (overwrite defs s old)) ∧
    ∀ {ι ω : Type} (defs : Definitions ι ω) (s : Schema ι ω) (v : Value), defs.WellFormed s →
      defs.Writable s v →
        write defs s v = lift (defs.write s v) ∧ Answers (write defs s v) ∧
        ∀ sink final, write defs s v sink ≠ .error (.refused .illTyped) final := by
  refine ⟨fun defs s hwell => ⟨?_, fun old htype => ?_⟩, fun defs s v hwell hvalue => ?_⟩
  · rw [read_eq hwell]
    exact ⟨rfl, answers_lift _⟩
  · rw [overwrite_eq hwell htype]
    exact ⟨rfl, answers_lift _⟩
  · rw [write_eq hwell hvalue]
    refine ⟨rfl, answers_lift _, fun sink final hrun => ?_⟩
    exact defs.ne_illTyped_of_write hwell hvalue (error_of_lift hrun) rfl

section

open Catalogue Definitions

theorem wellFormed_leaf {ω : Type} {s : Schema Empty ω} (hadmissible : s.Admissible)
    (hparts : s.parts = []) : none.WellFormed s :=
  forall_occurs_of_parts nofun hadmissible (by simp [hparts])

/-- Five bits with another one set behind them, a list read over with a shorter one, and a number beyond
    what the layout can hold. -/
theorem coding_never_faults_refused :
    read none (.bits : Schema Empty Empty) (.slice [20, 63]) =
        .error (.refused .unusedBitsAreSet) (.slice []) ∧
      overwrite none (vector u8 : Schema Empty Empty) (.list [.int 8, .int 9]) (.slice [4, 7]) =
        .ok (.list [.int 7]) (.slice []) ∧
      write none (.compact (.big false) : Schema Empty Unit) (.int (2 ^ 64)) (.counter .jam 0) =
        .error (.refused .valueTooBig) (.counter .jam 0) := by
  have hbits : none.WellFormed (.bits : Schema Empty Empty) := wellFormed_leaf trivial rfl
  have hcompact : none.WellFormed (.compact (.big false) : Schema Empty Unit) :=
    wellFormed_leaf trivial rfl
  have hvector : none.WellFormed (vector u8 : Schema Empty Empty) :=
    forall_occurs_of_parts nofun trivial (List.forall_mem_singleton.2 wellFormed_u8)
  have hold : none.HasType (vector u8 : Schema Empty Empty) (.list [.int 8, .int 9]) :=
    forall_within_sequence (Nat.le_of_ble_eq_true rfl)
      (List.forall_mem_cons.2 ⟨hasType_int rfl, List.forall_mem_singleton.2 (hasType_int rfl)⟩)
  have hnumber : none.Writable (.compact (.big false) : Schema Empty Unit) (.int (2 ^ 64)) :=
    ⟨rfl, trivial, nofun⟩
  obtain ⟨hreads, hwrites⟩ := coding_never_faults
  obtain ⟨⟨hread, _⟩, _⟩ := hreads none _ hbits
  obtain ⟨_, hoverwrites⟩ := hreads none _ hvector
  obtain ⟨hoverwrite, _⟩ := hoverwrites _ hold
  obtain ⟨hwrite, _⟩ := hwrites none _ _ hcompact hnumber
  rw [hread, hoverwrite, hwrite]
  exact ⟨rfl, rfl, rfl⟩

end

end Checked

end Scale
