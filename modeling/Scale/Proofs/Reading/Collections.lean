import Scale.Bounded
import Scale.Proofs.Reading.Tables
import Scale.Proofs.RoundTrip.CountGuard

namespace Scale

namespace Reader

variable {α β γ : Type} {source : Source} {limit limit' : Nat}

/-- The second step ends as the first does and leaves the same bytes, and where they succeed its value
    is related to that of the first. -/
def Parallels (step : Reader α) (step' : Reader β) (related : α → β → Prop) : Prop :=
  ∀ source, match step source with
    | .ok a after => ∃ b, step' source = .ok b after ∧ related a b
    | .error e after => step' source = .error e after

/-- Different things are made of what one step reads. -/
theorem Parallels.of_map {step : Reader α} {f : α → β} {g : α → γ} {related : β → γ → Prop}
    (hrelated : ∀ a, related (f a) (g a)) :
    Parallels (do let a ← step; return f a) (do let a ← step; return g a) related := by
  intro source
  cases hrun : step source with
  | ok a after =>
    rw [Step.bind_of_ok hrun]
    exact ⟨g a, Step.bind_of_ok hrun, hrelated a⟩
  | error e after =>
    rw [Step.bind_of_error hrun]
    exact Step.bind_of_error hrun

end Reader

open Reader

namespace Value

end Value

/-- A bounded list is never overfull, so that it is read like any items of which there are no more. -/
theorem Bounded.take_eq {α : Type} {bound : Nat} (itemSize : Nat) (item : Reader α) :
    (do
      let list : Bounded bound α ← Bounded.take itemSize item
      return list.items) = takeCounted itemSize bound item := by
  unfold Bounded.take takeCounted
  rw [bind_assoc]
  refine Step.bind_congr_of_ok fun {_ count after} hcount => ?_
  obtain ⟨_, hlimit, _⟩ := bytes_of_takeItemCount hcount
  rw [bind_assoc]
  cases hitems : readMany count item after with
  | error e stopped => exact Step.bind_of_error hitems
  | ok items stopped =>
    have hlength : items.length ≤ bound := length_of_readMany hitems ▸ hlimit
    rw [Step.bind_of_ok hitems, Bounded.ofList, dif_pos hlength]
    rfl

namespace Definitions

variable {ι : Type} (defs : Definitions ι Empty)

section

variable {defs} {item : Schema ι Empty} {bound : Nat} {source : Source}

end

end Definitions

end Scale
