import Scale.Definitions

namespace Scale

variable {ι ω : Type}

namespace Schema

/-- The schemas of the values that a value of the schema is made of. -/
def parts : Schema ι ω → List (Schema ι ω)
  | option content => [content]
  | result success failure => [success, failure]
  | sequence _ item => [item]
  | set _ item => [item]
  | map _ key value => [key, value]
  | array _ item => [item]
  | tuple items => items
  | pointer pointee => [pointee]
  | weak _ pointee => [pointee]
  | record _ selection fields => selection.order.filterMap (fields[·]?)
  | sum _ alternatives => alternatives
  | _ => []

theorem mem_parts_record {labels : Labels} {selection : Selection} {fields : List (Schema ι ω)}
    {i : Nat} {field : Schema ι ω} (hi : i ∈ selection.order) (hfield : fields[i]? = some field) :
    field ∈ (record labels selection fields).parts :=
  List.mem_filterMap.2 ⟨i, hi, hfield⟩

theorem sizeOf_lt_of_mem_parts {part s : Schema ι ω} (hpart : part ∈ s.parts) :
    sizeOf part < sizeOf s := by
  have hlist : ∀ {items : List (Schema ι ω)}, part ∈ items → sizeOf part < sizeOf items :=
    List.sizeOf_lt_of_mem
  cases s <;> simp only [parts, List.mem_cons, List.not_mem_nil, or_false] at hpart
  case option => subst hpart; simp +arith
  case result => rcases hpart with rfl | rfl <;> simp +arith
  case sequence => subst hpart; simp +arith
  case set => subst hpart; simp +arith
  case map => rcases hpart with rfl | rfl <;> simp +arith
  case array => subst hpart; simp +arith
  case pointer => subst hpart; simp +arith
  case weak => subst hpart; simp +arith
  case tuple =>
    have hlt := hlist hpart
    simp only [tuple.sizeOf_spec]
    omega
  case record labels selection fields =>
    obtain ⟨i, _, hfield⟩ := List.mem_filterMap.1 hpart
    have hlt := hlist (List.mem_of_getElem? hfield)
    simp only [record.sizeOf_spec]
    omega
  case sum =>
    have hlt := hlist hpart
    simp only [sum.sizeOf_spec]
    omega

/-- What holds of a schema whenever it holds of its parts holds of every schema. -/
theorem partInduction {motive : Schema ι ω → Prop}
    (step : ∀ s, (∀ part ∈ s.parts, motive part) → motive s) (s : Schema ι ω) : motive s :=
  step s fun part hpart =>
    have _ := sizeOf_lt_of_mem_parts hpart
    partInduction step part
termination_by sizeOf s

end Schema

namespace Definitions

/-- A schema occurs in another when it is the other one, a part of it, or a part of what a
    recursive type in it stands for. -/
inductive Occurs (defs : Definitions ι ω) : Schema ι ω → Schema ι ω → Prop where
  | refl (s : Schema ι ω) : Occurs defs s s
  | part {s part t : Schema ι ω} : part ∈ s.parts → Occurs defs part t → Occurs defs s t
  | body {name : ι} {t : Schema ι ω} : Occurs defs (defs.body name) t → Occurs defs (.ref name) t

variable {defs : Definitions ι ω}

theorem Occurs.trans {s t u : Schema ι ω} (hst : Occurs defs s t) (htu : Occurs defs t u) :
    Occurs defs s u := by
  induction hst with
  | refl _ => exact htu
  | part hpart _ ih => exact .part hpart (ih htu)
  | body _ ih => exact .body (ih htu)

/-- A property of all that occurs in a schema is one of all that occurs in its parts. -/
theorem forall_occurs_part {P : Schema ι ω → Prop} {s part : Schema ι ω}
    (hall : ∀ t, Occurs defs s t → P t) (hpart : part ∈ s.parts) :
    ∀ t, Occurs defs part t → P t :=
  fun t hoccurs => hall t (.part hpart hoccurs)

theorem forall_occurs_body {P : Schema ι ω → Prop} {name : ι}
    (hall : ∀ t, Occurs defs (.ref name) t → P t) : ∀ t, Occurs defs (defs.body name) t → P t :=
  fun t hoccurs => hall t (.body hoccurs)

/-- All that occurs in a schema is the schema itself and what occurs in its parts. -/
theorem forall_occurs_of_parts {P : Schema ι ω → Prop} {s : Schema ι ω}
    (href : ∀ name, s ≠ .ref name) (hs : P s)
    (hparts : ∀ part ∈ s.parts, ∀ t, Occurs defs part t → P t) : ∀ t, Occurs defs s t → P t := by
  intro t hoccurs
  cases hoccurs with
  | refl => exact hs
  | part hpart hoccurs => exact hparts _ hpart t hoccurs
  | body => exact absurd rfl (href _)

end Definitions

end Scale
