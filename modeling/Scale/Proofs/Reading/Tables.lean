import Scale.Proofs.Reading.Canonical
import Scale.Proofs.Reading.Typing
import Scale.Proofs.RoundTrip.Counted

namespace Scale

namespace Reader

variable {α β : Type}

theorem readMany_map (item : Reader α) (f : α → β) (n : Nat) :
    readMany n (do let a ← item; return f a) = (do
      let items ← readMany n item
      return items.map f) := by
  induction n with
  | zero => rfl
  | succ n ih =>
    rw [readMany_succ, readMany_succ, ih]
    simp only [bind_assoc, pure_bind, List.map_cons]

theorem takeCounted_map (itemSize limit : Nat) (item : Reader α) (f : α → β) :
    takeCounted itemSize limit (do let a ← item; return f a) = (do
      let items ← takeCounted itemSize limit item
      return items.map f) := by
  simp only [takeCounted, readMany_map, bind_assoc]

end Reader

namespace Schema

variable {ι ω : Type}

/-- What an item of a set or an entry of a map is placed by. -/
def keyOf : Schema ι ω → Value → Value
  | map _ _ _ => Value.entryKey
  | _ => id

/-- The order of the items of a set or the keys of a map. -/
def keyOrder : Schema ι ω → KeyOrder
  | set keys _ => keys.order
  | map keys _ _ => keys.order
  | _ => .structural

/-- The same set or map with its keys found in another way. -/
def ofKind (kind : TableKind) : Schema ι ω → Schema ι ω
  | set keys item => set { keys with kind } item
  | map keys key value => map { keys with kind } key value
  | s => s

@[simp] theorem isTable_ofKind (kind : TableKind) (s : Schema ι ω) :
    (s.ofKind kind).IsTable ↔ s.IsTable := by
  cases s <;> rfl

@[simp] theorem counted?_ofKind (kind : TableKind) (s : Schema ι ω) :
    (s.ofKind kind).counted? = s.counted? := by
  cases s <;> rfl

end Schema

namespace Definitions

open Reader Writer

variable {ι : Type} {defs : Definitions ι Empty} {s entry : Schema ι Empty}

theorem read_pair (key value : Schema ι Empty) :
    defs.read (.tuple [key, value]) = (do
      let entry ← (do
        let k ← defs.read key
        let w ← defs.read value
        return (k, w))
      return Value.ofEntry entry) := by
  rw [read_tuple]
  simp only [List.mapM_cons, List.mapM_nil, bind_assoc, pure_bind]
  rfl

/-- A set or map is read as a vector of its items or entries, which are then put into place. -/
theorem read_table_iff (htable : s.IsTable) (hentry : s.counted? = some entry)
    {source after : Source} {v : Value} :
    defs.read s source = .ok v after ↔ ∃ es table,
      defs.read (.sequence .vector entry) source = .ok (.list es) after ∧
        Tabulates s.keyOrder s.keyOf es table ∧ v = .list table := by
  cases s with
  | set keys item =>
    obtain rfl := Option.some.inj hentry
    rw [read_set, read_sequence]
    constructor
    · intro hrun
      obtain ⟨vs, hvs, rfl⟩ := Step.map_eq_ok_iff.1 hrun
      exact ⟨vs, _, Step.map_eq_ok_iff.2 ⟨vs, hvs, rfl⟩, tabulates_setOfList keys.order vs, rfl⟩
    · rintro ⟨es, table, hrun, htabulates, rfl⟩
      obtain ⟨vs, hvs, heq⟩ := Step.map_eq_ok_iff.1 hrun
      obtain rfl := Value.list.inj heq
      rw [htabulates.unique (tabulates_setOfList keys.order vs)]
      exact Step.map_eq_ok_iff.2 ⟨vs, hvs, rfl⟩
  | map keys key value =>
    obtain rfl := Option.some.inj hentry
    rw [read_map, read_sequence, read_pair, takeCounted_map, bind_assoc]
    simp only [pure_bind]
    constructor
    · intro hrun
      obtain ⟨entries, hentries, rfl⟩ := Step.map_eq_ok_iff.1 hrun
      exact ⟨_, _, Step.map_eq_ok_iff.2 ⟨entries, hentries, rfl⟩,
        tabulates_mapOfEntries keys.order entries, rfl⟩
    · rintro ⟨es, table, hrun, htabulates, rfl⟩
      obtain ⟨entries, hentries, heq⟩ := Step.map_eq_ok_iff.1 hrun
      obtain rfl := Value.list.inj heq
      rw [htabulates.unique (tabulates_mapOfEntries keys.order entries)]
      exact Step.map_eq_ok_iff.2 ⟨entries, hentries, rfl⟩
  | _ => cases htable

/-- Values of a pair are entries. -/
theorem exists_eq_map_ofEntry {key value : Schema ι Empty} {es : List Value}
    (hform : ∀ e ∈ es, (Schema.tuple [key, value]).Admits e) :
    ∃ entries : List (Value × Value), es = entries.map Value.ofEntry := by
  induction es with
  | nil => exact ⟨[], rfl⟩
  | cons e es ih =>
    obtain ⟨he, hes⟩ := List.forall_mem_cons.1 hform
    obtain ⟨entries, rfl⟩ := ih hes
    cases e with
    | list vs =>
      have hlength : vs.length = 2 := he
      match vs, hlength with
      | [k, w], _ => exact ⟨(k, w) :: entries, rfl⟩
    | _ => cases he

/-- A set or map is written as the vector of its items or entries. -/
theorem write_table (htable : s.IsTable) (hentry : s.counted? = some entry) {es : List Value}
    (hform : ∀ e ∈ es, entry.Admits e) :
    defs.write s (.list es) = defs.write (.sequence .vector entry) (.list es) := by
  cases s with
  | set keys item =>
    obtain rfl := Option.some.inj hentry
    rw [write_set, write_sequence]
  | map keys key value =>
    obtain rfl := Option.some.inj hentry
    obtain ⟨entries, rfl⟩ := exists_eq_map_ofEntry hform
    have hput : (fun entry : Value × Value => do
        defs.write key entry.1
        defs.write value entry.2) =
          fun entry => defs.write (.tuple [key, value]) (.ofEntry entry) := by
      funext entry
      exact (write_pair key value entry.1 entry.2).symm
    have hmap := defs.write_map keys key value entries
    rw [hput] at hmap
    refine hmap.trans ?_
    simp only [write_sequence, putCounted, List.length_map, List.forM_eq_forM, List.forM_map]
  | _ => cases htable

end Definitions

end Scale
