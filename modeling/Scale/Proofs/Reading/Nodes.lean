import Scale.Proofs.Reading.Amplification

namespace Scale

variable {ι ω : Type}

namespace Schema

mutual

/-- The least number of bytes of a value that is read. Recursive types are not looked into. -/
def leastBytes : Schema ι ω → Nat
  | unit => 0
  | int t => t.bytes
  | wide width => width
  | result success failure => 1 + min success.leastBytes failure.leastBytes
  | array count item => count * item.leastBytes
  | tuple items => leastOfAll items
  | pointer pointee => pointee.leastBytes
  | weak _ _ => 0
  | encoded _ => 0
  | record _ selection fields => (selection.order.map fun i => leastAt fields i).sum
  | sum _ alternatives => 1 + leastOfAny alternatives
  | enumeration e => e.repr.bytes
  | range r => r.repr.bytes
  | ref _ => 0
  | _ => 1

/-- The least number of bytes of one value of each schema. -/
def leastOfAll : List (Schema ι ω) → Nat
  | [] => 0
  | s :: ss => s.leastBytes + leastOfAll ss

/-- The least number of bytes of a value of one of the schemas. -/
def leastOfAny : List (Schema ι ω) → Nat
  | [] => 0
  | [s] => s.leastBytes
  | s :: t :: ss => min s.leastBytes (leastOfAny (t :: ss))

/-- The least number of bytes of a value of the schema at an index. -/
def leastAt : List (Schema ι ω) → Nat → Nat
  | [], _ => 0
  | s :: _, 0 => s.leastBytes
  | _ :: ss, i + 1 => leastAt ss i

end

/-- A value of a recursive type is a node. -/
def node : Schema ι ω → Value → Nat
  | ref _, _ => 1
  | _, _ => 0

variable {items : List (Schema ι ω)} {s : Schema ι ω}

theorem leastOfAll_eq (items : List (Schema ι ω)) :
    leastOfAll items = (items.map leastBytes).sum := by
  induction items with
  | nil => rw [leastOfAll]; rfl
  | cons s ss ih => rw [leastOfAll, List.map_cons, List.sum_cons, ih]

theorem leastAt_eq (fields : List (Schema ι ω)) (i : Nat) :
    leastAt fields i = (fields[i]?.map leastBytes).getD 0 := by
  induction fields generalizing i with
  | nil => rw [leastAt]; rfl
  | cons field fields ih =>
    cases i with
    | zero => rw [leastAt]; rfl
    | succ i => exact ih i

theorem leastOfAny_le (hmem : s ∈ items) : leastOfAny items ≤ s.leastBytes := by
  induction items with
  | nil => cases hmem
  | cons t ss ih =>
    cases ss with
    | nil =>
      obtain rfl := List.mem_singleton.1 hmem
      exact Nat.le_refl _
    | cons u ss =>
      rw [leastOfAny]
      rcases List.mem_cons.1 hmem with rfl | hmem
      · exact Nat.min_le_left _ _
      · exact Nat.le_trans (Nat.min_le_right _ _) (ih hmem)

end Schema

namespace Definitions

variable (defs : Definitions ι Empty) {s : Schema ι Empty} {v : Value}

/-- The number of values of recursive types within a value. -/
def nodes (defs : Definitions ι ω) : Schema ι ω → Value → Nat :=
  defs.total Schema.node

theorem nodes_eq (defs : Definitions ι ω) (s : Schema ι ω) (v : Value) : defs.nodes s v =
    s.node v + ((defs.components s v).map fun part => defs.nodes part.1 part.2).sum :=
  defs.total_eq Schema.node s v

theorem nodes_ref (defs : Definitions ι ω) (name : ι) (v : Value) :
    defs.nodes (.ref name) v = 1 + defs.nodes (defs.body name) v :=
  defs.nodes_eq (.ref name) v

/-- A value that is no node itself has the nodes of its one component. -/
theorem nodes_of_component {defs : Definitions ι ω} {s t : Schema ι ω} {v w : Value}
    (hnode : s.node v = 0) (hcomponents : defs.components s v = [(t, w)]) :
    defs.nodes s v = defs.nodes t w := by
  rw [nodes_eq, hnode, hcomponents, Nat.zero_add]
  exact List.sum_singleton

theorem leastBytes_tuple {items : List (Schema ι Empty)} {ws : List Value}
    (hlength : ws.length = items.length) : (Schema.tuple items).leastBytes =
      ((defs.components (.tuple items) (.list ws)).map fun part => part.1.leastBytes).sum := by
  have hitems : items = (items.zip ws).map Prod.fst :=
    (List.map_fst_zip (Nat.le_of_eq hlength.symm)).symm
  rw [Schema.leastBytes, Schema.leastOfAll_eq, components, hitems, List.map_map, ← hitems]
  rfl

theorem leastBytes_record {labels : Labels} {selection : Selection} {fields : List (Schema ι Empty)}
    {ws : List Value} (hlength : ws.length = fields.length) :
    (Schema.record labels selection fields).leastBytes =
      ((defs.components (.record labels selection fields) (.list ws)).map fun part =>
        part.1.leastBytes).sum := by
  obtain ⟨order, default⟩ := selection
  rw [Schema.leastBytes, components]
  induction order with
  | nil => rfl
  | cons i order ih =>
    rw [List.map_cons, List.sum_cons, ih, Schema.leastAt_eq, List.filterMap_cons]
    cases hfield : fields[i]? with
    | none => simp
    | some field =>
      have hlt : i < ws.length := hlength ▸ (List.getElem?_eq_some_iff.1 hfield).1
      simp [List.getElem?_eq_getElem hlt]

/-- What a value takes at least are the bytes for itself and what its components take at least. -/
theorem leastBytes_le (hadmits : s.Admits v) : s.leastBytes ≤
    s.charge v + ((defs.components s v).map fun part => part.1.leastBytes).sum := by
  cases s with
  | option content =>
    cases v with
    | present w =>
      cases content with
      | bool => exact Nat.le_add_left 1 _
      | _ => exact Nat.le_add_right 1 _
    | _ => exact Nat.le_add_right 1 _
  | result success failure =>
    cases v with
    | tagged i w =>
      match i, hadmits with
      | 0, _ => exact Nat.add_le_add_left (Nat.min_le_left _ _) 1
      | 1, _ => exact Nat.add_le_add_left (Nat.min_le_right _ _) 1
    | _ => exact hadmits.elim
  | array count item =>
    cases v with
    | list ws =>
      have hlength : ws.length = count := hadmits
      simp [Schema.leastBytes, Schema.charge, components, Function.comp_def, hlength]
    | _ => exact hadmits.elim
  | tuple items =>
    cases v with
    | list ws =>
      rw [defs.leastBytes_tuple hadmits]
      exact Nat.le_add_left _ _
    | _ => exact hadmits.elim
  | pointer pointee => simp [Schema.leastBytes, components]
  | weak writeOnly _ => exact writeOnly.elim
  | encoded writeOnly => exact writeOnly.elim
  | record labels selection fields =>
    cases v with
    | list ws =>
      rw [defs.leastBytes_record hadmits]
      exact Nat.le_add_left _ _
    | _ => exact hadmits.elim
  | sum names alternatives =>
    cases v with
    | tagged i w =>
      have hlt : i < alternatives.length := hadmits
      have hleast := Schema.leastOfAny_le (List.getElem_mem hlt)
      simpa [Schema.leastBytes, Schema.charge, components, hlt] using hleast
    | _ => exact hadmits.elim
  | _ => exact Nat.le_add_right _ _

variable {defs}

/-- Each node takes the bytes of its definition, and shares them with no other one. -/
theorem mul_nodes_add_le {amount : Nat} (hbodies : ∀ name, amount ≤ (defs.body name).leastBytes)
    (htype : defs.HasType s v) :
    amount * defs.nodes s v + s.leastBytes ≤ defs.total Schema.charge s v := by
  induction s, v using defs.valueInduction with
  | step s v ih =>
    have hparts : ∀ part ∈ defs.components s v,
        amount * defs.nodes part.1 part.2 + part.1.leastBytes ≤
          defs.total Schema.charge part.1 part.2 := fun part hmem =>
      have hpart := partOf_of_mem_components hmem
      ih part.1 part.2 hpart (forall_within_part htype hpart)
    have hsum := List.sum_le_sum hparts
    rw [List.sum_map_add, List.sum_map_mul_left] at hsum
    -- A recursive type takes what its definition takes, all of which goes to the node.
    have hown : amount * s.node v + s.leastBytes ≤
        s.charge v + ((defs.components s v).map fun part => part.1.leastBytes).sum := by
      have hleast := defs.leastBytes_le (htype s v (.refl s v))
      cases s with
      | ref name =>
        have hbody : (defs.components (.ref name) v).map (fun part => part.1.leastBytes) =
          [(defs.body name).leastBytes] := rfl
        rw [hbody, List.sum_singleton]
        exact Nat.le_trans (Nat.le_of_eq (Nat.mul_one amount))
          (Nat.le_trans (hbodies name) (Nat.le_add_left _ _))
      | _ => exact Nat.le_trans (Nat.le_of_eq (Nat.zero_add _)) hleast
    rw [nodes_eq, total_eq, Nat.mul_add]
    omega

/-- What is read has no more nodes than their bytes fit into what was taken. -/
theorem mul_nodes_le {amount : Nat} {source after : Source} (hwell : defs.WellFormed s)
    (hbodies : ∀ name, amount ≤ (defs.body name).leastBytes)
    (hread : defs.read s source = .ok v after) :
    after.bytes.length + amount * defs.nodes s v ≤ source.bytes.length := by
  have htype := (hasType_of_read hwell (.of_ok hread)).1
  have hnodes := mul_nodes_add_le hbodies htype
  have hpaid := total_charge_le hwell hread
  omega

end Definitions

end Scale
