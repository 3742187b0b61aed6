import Scale.Proofs.Schema.Parts
import Scale.Value.Basic

namespace Scale

variable {ι ω : Type}

namespace Value

theorem depth_pos (v : Value) : 0 < v.depth := by
  cases v <;> simp [depth]

theorem depth_le_depthList {v : Value} {vs : List Value} (hv : v ∈ vs) :
    v.depth ≤ depthList vs := by
  induction vs with
  | nil => cases hv
  | cons w ws ih =>
    rw [depthList]
    rcases List.mem_cons.1 hv with rfl | hws
    · exact Nat.le_max_left _ _
    · exact Nat.le_trans (ih hws) (Nat.le_max_right _ _)

theorem depth_lt_of_mem {v : Value} {vs : List Value} (hv : v ∈ vs) :
    v.depth < (list vs).depth :=
  Nat.lt_succ_of_le (depth_le_depthList hv)

theorem depth_lt_of_getElem? {v : Value} {vs : List Value} {i : Nat} (hv : vs[i]? = some v) :
    v.depth < (list vs).depth :=
  depth_lt_of_mem (List.mem_of_getElem? hv)

end Value

namespace Definitions

/-- A value with its schema is a part of another one. The fields of a record that are not coded are
    no parts of it. -/
inductive PartOf (defs : Definitions ι ω) : Schema ι ω → Value → Schema ι ω → Value → Prop where
  | content {s w} : PartOf defs (.option s) (.present w) s w
  | success {s t w} : PartOf defs (.result s t) (.tagged 0 w) s w
  | failure {s t w} : PartOf defs (.result s t) (.tagged 1 w) t w
  | item {kind s ws w} : w ∈ ws → PartOf defs (.sequence kind s) (.list ws) s w
  | member {keys s ws w} : w ∈ ws → PartOf defs (.set keys s) (.list ws) s w
  | key {keys s t ws k w} : .list [k, w] ∈ ws → PartOf defs (.map keys s t) (.list ws) s k
  | value {keys s t ws k w} : .list [k, w] ∈ ws → PartOf defs (.map keys s t) (.list ws) t w
  | element {count s ws w} : w ∈ ws → PartOf defs (.array count s) (.list ws) s w
  | component {ss s ws w} {i : Nat} : ss[i]? = some s → ws[i]? = some w →
    PartOf defs (.tuple ss) (.list ws) s w
  | pointee {s w} : PartOf defs (.pointer s) w s w
  | target {writeOnly s w} : PartOf defs (.weak writeOnly s) w s w
  | field {labels selection ss s ws w} {i : Nat} : i ∈ selection.order → ss[i]? = some s →
    ws[i]? = some w → PartOf defs (.record labels selection ss) (.list ws) s w
  | alternative {names ss s w} {i : Nat} : ss[i]? = some s →
    PartOf defs (.sum names ss) (.tagged i w) s w
  | body {name w} : PartOf defs (.ref name) w (defs.body name) w

variable {defs : Definitions ι ω} {s t u : Schema ι ω} {v w x : Value}

theorem PartOf.decreases (hpart : PartOf defs s v t w) : w.depth < v.depth ∨ w = v ∧
    (s.guarded = false ∧ t.guarded = true ∨ s.guarded = t.guarded ∧ sizeOf t < sizeOf s) := by
  cases hpart with
  | content => exact Or.inl (Nat.lt_succ_self _)
  | success => exact Or.inl (Nat.lt_succ_self _)
  | failure => exact Or.inl (Nat.lt_succ_self _)
  | item hmem => exact Or.inl (Value.depth_lt_of_mem hmem)
  | member hmem => exact Or.inl (Value.depth_lt_of_mem hmem)
  | key hmem =>
    have hentry := Value.depth_lt_of_mem hmem
    exact Or.inl (Nat.lt_trans (Value.depth_lt_of_mem (by simp)) hentry)
  | value hmem =>
    have hentry := Value.depth_lt_of_mem hmem
    exact Or.inl (Nat.lt_trans (Value.depth_lt_of_mem (by simp)) hentry)
  | element hmem => exact Or.inl (Value.depth_lt_of_mem hmem)
  | component _ hget => exact Or.inl (Value.depth_lt_of_getElem? hget)
  | pointee => exact Or.inr ⟨rfl, Or.inr ⟨rfl, by simp +arith⟩⟩
  | target => exact Or.inr ⟨rfl, Or.inr ⟨rfl, by simp +arith⟩⟩
  | field _ _ hget => exact Or.inl (Value.depth_lt_of_getElem? hget)
  | alternative => exact Or.inl (Nat.lt_succ_self _)
  | body => exact Or.inr ⟨rfl, Or.inl ⟨rfl, defs.guarded_body _⟩⟩

/-- The schema of a part of a value is a part of the schema, or what the schema stands for. -/
theorem PartOf.occurs (hpart : PartOf defs s v t w) : Occurs defs s t := by
  cases hpart with
  | field hi hfield _ => exact .part (Schema.mem_parts_record hi hfield) (.refl t)
  | component hcomponent _ => exact .part (List.mem_of_getElem? hcomponent) (.refl t)
  | alternative halternative => exact .part (List.mem_of_getElem? halternative) (.refl t)
  | body => exact .body (.refl _)
  | _ => exact .part (by simp [Schema.parts]) (.refl t)

theorem PartOf.forall_occurs {P : Schema ι ω → Prop} (hpart : PartOf defs s v t w)
    (hall : ∀ u, Occurs defs s u → P u) : ∀ u, Occurs defs t u → P u :=
  fun u hoccurs => hall u (hpart.occurs.trans hoccurs)

/-- What gets smaller, from a value to its parts. -/
noncomputable def rank (s : Schema ι ω) (v : Value) : Nat × Nat × Nat :=
  (v.depth, if s.guarded then 0 else 1, sizeOf s)

theorem PartOf.rank_lt (hpart : PartOf defs s v t w) :
    Prod.Lex (· < ·) (Prod.Lex (· < ·) (· < ·)) (rank t w) (rank s v) := by
  rw [Prod.lex_def, Prod.lex_def]
  obtain hdepth | ⟨rfl, ⟨hs, ht⟩ | ⟨hguarded, hsize⟩⟩ := hpart.decreases
  · exact Or.inl hdepth
  · exact Or.inr ⟨rfl, Or.inl (by simp [rank, hs, ht])⟩
  · exact Or.inr ⟨rfl, Or.inr ⟨by simp only [rank, hguarded], hsize⟩⟩

/-- What holds of a value of a schema whenever it holds of its parts holds of every value. -/
theorem valueInduction {motive : Schema ι ω → Value → Prop}
    (step : ∀ s v, (∀ t w, PartOf defs s v t w → motive t w) → motive s v)
    (s : Schema ι ω) (v : Value) : motive s v :=
  step s v fun t w _ => valueInduction step t w
termination_by rank s v
decreasing_by exact PartOf.rank_lt ‹_›

/-- A value with its schema is within another one when it is reached through parts. -/
inductive Within (defs : Definitions ι ω) : Schema ι ω → Value → Schema ι ω → Value → Prop where
  | refl (s : Schema ι ω) (v : Value) : Within defs s v s v
  | step {s t u : Schema ι ω} {v w x : Value} : PartOf defs s v t w → Within defs t w u x →
    Within defs s v u x

theorem Within.occurs (hwithin : Within defs s v t w) : Occurs defs s t := by
  induction hwithin with
  | refl s _ => exact .refl s
  | step hpart _ ih => exact hpart.occurs.trans ih

/-- A property of all that is within a value is one of all that is within its parts. -/
theorem forall_within_part {P : Schema ι ω → Value → Prop}
    (hall : ∀ u x, Within defs s v u x → P u x) (hpart : PartOf defs s v t w) :
    ∀ u x, Within defs t w u x → P u x :=
  fun u x hwithin => hall u x (.step hpart hwithin)

/-- All that is within a value is the value itself and what is within its parts. -/
theorem forall_within_of_parts {P : Schema ι ω → Value → Prop} (hv : P s v)
    (hparts : ∀ t w, PartOf defs s v t w → ∀ u x, Within defs t w u x → P u x) :
    ∀ u x, Within defs s v u x → P u x := by
  intro u x hwithin
  cases hwithin with
  | refl => exact hv
  | step hpart hwithin => exact hparts _ _ hpart u x hwithin

theorem forall_within_sequence {P : Schema ι ω → Value → Prop} {kind : SequenceKind}
    {item : Schema ι ω} {vs : List Value} (hself : P (.sequence kind item) (.list vs))
    (hitems : ∀ v ∈ vs, ∀ u x, Within defs item v u x → P u x) :
    ∀ u x, Within defs (.sequence kind item) (.list vs) u x → P u x := by
  refine forall_within_of_parts hself fun t w hpart => ?_
  cases hpart with
  | item hw => exact hitems w hw

end Definitions

end Scale
