import Scale.Catalogue
import Scale.Proofs.Reading.Nodes

namespace Scale

variable {ι : Type}

/-- All that a schema is made of is such as can be declared. Recursive types are not looked into. -/
inductive Schema.Sound : Schema ι Empty → Prop where
  | intro {s : Schema ι Empty} : s.Admissible → (∀ part ∈ s.parts, Sound part) → Sound s

namespace Definitions

open Reader

variable {defs : Definitions ι Empty}

theorem wellFormed_of_sound (hbodies : ∀ name, (defs.body name).Sound) {s : Schema ι Empty}
    (hsound : s.Sound) : defs.WellFormed s := by
  intro t hoccurs
  induction hoccurs with
  | refl s =>
    obtain ⟨hadmissible, _⟩ := hsound
    exact hadmissible
  | part hpart _ ih =>
    obtain ⟨_, hparts⟩ := hsound
    exact ih (hparts _ hpart)
  | body _ ih => exact ih (hbodies _)

/-- A recursive type is read by its definition, with the same reader for the recursive types in it. -/
theorem read_ref_eq_readWith (defs : Definitions ι Empty) (name : ι) : defs.read (.ref name) =
    (defs.body name).readWith defs.layout fun other => defs.read (.ref other) := by
  rw [read_ref, readWith_read]

/-- Reads a recursive type by its definition, in which recursive types are read in the same way up to a
    depth. What lies beyond it is read in a way of its own. -/
def unrolled (defs : Definitions ι Empty) (beyond : ι → Reader Value) : Nat → ι → Reader Value
  | 0, name => beyond name
  | depth + 1, name => (defs.body name).readWith defs.layout (defs.unrolled beyond depth)

/-- Where every definition takes `amount` bytes before it comes to a recursive type, calls only nest once
    for as many bytes. -/
theorem agrees_unrolled {amount : Nat} (hbodies : ∀ {n : Nat} {self self' : ι → Reader Value},
      (∀ other, Agrees n (self other) (self' other)) → ∀ name,
        Agrees (n + amount) ((defs.body name).readWith defs.layout self)
          ((defs.body name).readWith defs.layout self'))
    (beyond : ι → Reader Value) (depth : Nat) (name : ι) :
    Agrees (amount * depth) (defs.read (.ref name)) (defs.unrolled beyond depth name) := by
  induction depth generalizing name with
  | zero => exact ⟨defs.takesPrefix_read (.ref name), fun hlt => absurd hlt (Nat.not_lt_zero _)⟩
  | succ depth ih =>
    rw [read_ref_eq_readWith, unrolled, Nat.mul_succ]
    exact hbodies ih name

end Definitions

namespace Catalogue

open Reader

theorem sound_body (name : Recursive) : (definitions.body name).Sound := by
  have hleaf : ∀ {s : Schema Recursive Empty}, s.Admissible → s.parts = [] → s.Sound :=
    fun hadmissible hparts => .intro hadmissible (by simp [hparts])
  cases name with
  | list =>
    have htail : (Schema.option (.pointer (.ref .list)) : Schema Recursive Empty).Sound :=
      .intro trivial (List.forall_mem_singleton.2
        (.intro trivial (List.forall_mem_singleton.2 (hleaf trivial rfl))))
    exact .intro ⟨by decide, by decide⟩
      (List.forall_mem_cons.2 ⟨hleaf trivial rfl, List.forall_mem_singleton.2 htail⟩)
  | tree =>
    have hleaves : (Schema.product .positions [compactU32] : Schema Recursive Empty).Sound :=
      .intro ⟨by decide, by decide⟩ (List.forall_mem_singleton.2 (hleaf trivial rfl))
    have htrees : (Schema.product .positions [vector (.ref .tree)] : Schema Recursive Empty).Sound :=
      .intro ⟨by decide, by decide⟩ (List.forall_mem_singleton.2
        (.intro trivial (List.forall_mem_singleton.2 (hleaf trivial rfl))))
    exact .intro (by decide : 2 ≤ 256)
      (List.forall_mem_cons.2 ⟨hleaves, List.forall_mem_singleton.2 htrees⟩)

section

variable {named : Recursive → Layout} {self self' : Recursive → Reader Value} {n : Nat}

theorem readWith_listBody (named : Recursive → Layout) (self : Recursive → Reader Value) :
    listBody.readWith named self = (do
      let head ← Schema.readWith named self u8
      let tail ← Schema.readWith named self (.option (.pointer (.ref .list)))
      return .list [head, tail]) := by
  have hfields : listBody.readWith named self = (do
      let vs ← [0, 1].mapM fun i =>
        Schema.readNth named self [u8, .option (.pointer (.ref .list))] i
      return .list (Value.place [0, 1] vs
        ((Selection.all 2).blank 2))) := rfl
  rw [hfields]
  simp only [List.mapM_cons, List.mapM_nil, bind_assoc, pure_bind]
  rfl

/-- The head of a list and the mark of its tail come before the tail. -/
theorem agrees_listBody (hself : ∀ other, Agrees n (self other) (self' other)) :
    Agrees (n + 2) (listBody.readWith named self) (listBody.readWith named self') := by
  have hhead : TakesPrefix (Schema.readWith named self u8) :=
    TakesPrefix.readWith (fun other => (hself other).takesPrefix) u8
  have htail : Agrees (n + 1) (Schema.readWith named self (.option (.pointer (.ref .list))))
      (Schema.readWith named self' (.option (.pointer (.ref .list)))) :=
    Schema.agrees_readWith_of_guarded hself rfl
  rw [readWith_listBody, readWith_listBody]
  exact Agrees.bind_leads (leads_takeFixed FixedInt.u8).map hhead fun head =>
    (agrees_congruence (n + 1)).map (fun tail => Value.list [head, tail]) htail

/-- The tag of a tree and the count of its branches come before the branches. -/
theorem agrees_treeBody (hself : ∀ other, Agrees n (self other) (self' other)) :
    Agrees (n + 2) (treeBody.readWith named self) (treeBody.readWith named self') := by
  refine Agrees.bind_leads (leads_takeTag 2) (takesPrefix_congruence.takeTag 2) fun tag => ?_
  refine (agrees_congruence (n + 1)).map (Value.tagged tag)
    ((agrees_congruence (n + 1)).readNth fun alternative hget => ?_)
  refine Schema.agrees_readWith_of_guarded hself ?_
  rcases List.mem_cons.1 (List.mem_of_getElem? hget) with rfl | hmem
  · rfl
  · obtain rfl := List.mem_singleton.1 hmem
    rfl

end

/-- Both recursive types take two bytes before they come to themselves again. -/
theorem agrees_unrolled (beyond : Recursive → Reader Value) (depth : Nat) (name : Recursive) :
    Agrees (2 * depth) (definitions.read (.ref name)) (definitions.unrolled beyond depth name) := by
  refine Definitions.agrees_unrolled (fun hself name => ?_) beyond depth name
  cases name with
  | list => exact agrees_listBody hself
  | tree => exact agrees_treeBody hself

/-- The nodes of a list or of a tree. -/
def nodes (name : Recursive) (v : Value) : Nat :=
  (definitions : Definitions Recursive Empty).nodes (.ref name) v

/-- A tree is a node, and what it is an alternative of has the rest. -/
theorem nodes_tree (tag : Nat) (v w : Value) (alternative s : Schema Recursive Empty)
    (htag : definitions.components treeBody (.tagged tag v) = [(alternative, v)])
    (hproduct : alternative.node v = 0) (hfield : definitions.components alternative v = [(s, w)]) :
    nodes .tree (.tagged tag v) = 1 + definitions.nodes s w := by
  rw [nodes, Definitions.nodes_ref]
  congr 1
  exact (Definitions.nodes_of_component rfl htag).trans
    (Definitions.nodes_of_component hproduct hfield)

theorem nodes_leaf (n : Value) : nodes .tree (.tagged 0 (.list [n])) = 1 :=
  (nodes_tree 0 (.list [n]) n (.product .positions [compactU32]) compactU32 rfl rfl rfl).trans
    (congrArg (1 + ·) (definitions.nodes_eq compactU32 n))

theorem nodes_branch (trees : List Value) : nodes .tree (.tagged 1 (.list [.list trees])) =
    1 + (trees.map (nodes .tree)).sum := by
  rw [nodes_tree 1 (.list [.list trees]) (.list trees) (.product .positions [vector (.ref .tree)])
    (vector (.ref .tree)) rfl rfl rfl, Definitions.nodes_eq]
  have hitems : (definitions : Definitions Recursive Empty).components (vector (.ref .tree))
      (.list trees) = trees.map (.ref .tree, ·) := rfl
  rw [hitems, List.map_map]
  exact congrArg (1 + ·) (Nat.zero_add _)

/-- Reading a list or a tree satisfies its recursion, which never nests deeper than half the number of
    bytes, and what is read has no more nodes than half the number of bytes that were taken. -/
theorem recursion_bounded (name : Recursive) (source : Source) :
    definitions.read (.ref name) = ((definitions.body name).readWith
      (definitions : Definitions Recursive Empty).layout fun other => definitions.read (.ref other)) ∧
    (∀ (beyond : Recursive → Reader Value) (depth : Nat), source.bytes.length < 2 * depth →
      definitions.unrolled beyond depth name source = definitions.read (.ref name) source) ∧
    match definitions.read (.ref name) source with
    | .ok v after => ∃ taken : List UInt8, source.bytes = taken ++ after.bytes ∧
      nodes name v ≤ taken.length / 2
    | .error _ _ => True := by
  refine ⟨definitions.read_ref_eq_readWith name, fun beyond depth hdepth =>
    ((agrees_unrolled beyond depth name).eq hdepth).symm, ?_⟩
  cases hread : definitions.read (.ref name) source with
  | error e after => trivial
  | ok v after =>
    have hwell : definitions.WellFormed (.ref name : Schema Recursive Empty) :=
      Definitions.wellFormed_of_sound sound_body (.intro trivial nofun)
    have hbodies : ∀ other, 2 ≤ (definitions.body other : Schema Recursive Empty).leastBytes := by
      intro other
      cases other <;> decide
    have hnodes : after.bytes.length + 2 * nodes name v ≤ source.bytes.length :=
      Definitions.mul_nodes_le hwell hbodies hread
    obtain ⟨taken, rest, hbytes, rfl⟩ := (definitions.takesPrefix_read (.ref name)).reaches hread
    rw [Source.bytes_withBytes, hbytes, List.length_append] at hnodes
    exact ⟨taken, by rw [Source.bytes_withBytes, hbytes], by omega⟩

/-- A branch with a leaf and with a branch that has nothing. -/
def threeNodes : Value :=
  .tagged 1 (.list [.list [.tagged 0 (.list [.int 1]), .tagged 1 (.list [.list []])]])

/-- Three nodes come of six bytes, and four calls within each other are more than there can be. -/
theorem recursion_bounded_threeNodes :
    definitions.unrolled (fun _ => throw .notEnoughData) 4 .tree (.slice [1, 8, 0, 4, 1, 0]) =
      definitions.read (.ref .tree) (.slice [1, 8, 0, 4, 1, 0]) ∧
    definitions.read (.ref .tree) (.slice [1, 8, 0, 4, 1, 0]) = .ok threeNodes (.slice []) ∧
    nodes .tree threeNodes = 3 ∧ nodes .tree threeNodes ≤ 6 / 2 := by
  have hread : definitions.read (.ref .tree) (.slice [1, 8, 0, 4, 1, 0]) =
    .ok threeNodes (.slice []) := rfl
  obtain ⟨_, hdepth, hnodes⟩ := recursion_bounded .tree (.slice [1, 8, 0, 4, 1, 0])
  rw [hread] at hnodes
  obtain ⟨taken, hbytes, hle⟩ := hnodes
  obtain rfl : [1, 8, 0, 4, 1, 0] = taken := by simpa [Source.bytes] using hbytes
  have hcount : nodes .tree threeNodes = 3 := by
    rw [threeNodes, nodes_branch, List.map_cons, List.map_cons, List.map_nil, nodes_leaf,
      nodes_branch]
    rfl
  exact ⟨hdepth _ 4 (by decide), hread, hcount, hle⟩

end Catalogue

end Scale
