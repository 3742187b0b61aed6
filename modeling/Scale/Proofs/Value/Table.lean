import Scale.Value.Table

namespace Scale

variable {α : Type} {order : KeyOrder} {key : α → Value} {entries table : List α} {entry other : α}

/-- No entry with the same key comes after it. -/
def LastOf (key : α → Value) (entries : List α) (entry : α) : Prop :=
  ∃ before after, entries = before ++ entry :: after ∧ ∀ later ∈ after, key later ≠ key entry

/-- Strictly ascending by key. -/
abbrev Ascending (order : KeyOrder) (key : α → Value) (entries : List α) : Prop :=
  entries.Pairwise fun first second => order.cmp (key first) (key second) = .lt

/-- The table lists the last entry of each key, in the order of the keys. -/
structure Tabulates (order : KeyOrder) (key : α → Value) (entries table : List α) : Prop where
  ascending : Ascending order key table
  mem_iff : ∀ entry, entry ∈ table ↔ LastOf key entries entry

theorem lastOf_cons_iff : LastOf key (other :: entries) entry ↔
    LastOf key entries entry ∨ entry = other ∧ ∀ later ∈ entries, key later ≠ key entry := by
  constructor
  · rintro ⟨before, after, hentries, hafter⟩
    cases before with
    | nil =>
      obtain ⟨rfl, rfl⟩ := List.cons.inj hentries
      exact .inr ⟨rfl, hafter⟩
    | cons first before => exact .inl ⟨before, after, (List.cons.inj hentries).2, hafter⟩
  · rintro (⟨before, after, rfl, hafter⟩ | ⟨rfl, hafter⟩)
    · exact ⟨other :: before, after, rfl, hafter⟩
    · exact ⟨[], entries, rfl, hafter⟩

theorem LastOf.mem (hlast : LastOf key entries entry) : entry ∈ entries := by
  obtain ⟨before, after, rfl, _⟩ := hlast
  simp

/-- Without repeated keys every entry is the last one of its key. -/
theorem lastOf_iff_mem (hnodup : (entries.map key).Nodup) :
    LastOf key entries entry ↔ entry ∈ entries := by
  refine ⟨LastOf.mem, fun hmem => ?_⟩
  obtain ⟨before, after, rfl⟩ := List.append_of_mem hmem
  refine ⟨before, after, rfl, fun later hlater heq => ?_⟩
  rw [List.map_append, List.map_cons] at hnodup
  have hrest := (List.nodup_append.1 hnodup).2.1
  exact (List.nodup_cons.1 hrest).1 (heq ▸ List.mem_map_of_mem hlater)

theorem Ascending.nodup_keys (hascending : Ascending order key entries) : (entries.map key).Nodup := by
  refine List.pairwise_map.2 (hascending.imp fun {first second} hlt heq => ?_)
  rw [heq] at hlt
  exact Std.OrientedCmp.not_lt_of_lt hlt hlt

theorem Ascending.nodup (hascending : Ascending order key entries) : entries.Nodup :=
  (List.pairwise_map.1 hascending.nodup_keys).imp fun hne heq => hne (congrArg key heq)

theorem Tabulates.self (hascending : Ascending order key entries) :
    Tabulates order key entries entries :=
  ⟨hascending, fun _ => (lastOf_iff_mem hascending.nodup_keys).symm⟩

/-- There is only one table of given entries. -/
theorem Tabulates.unique {table' : List α} (htable : Tabulates order key entries table)
    (htable' : Tabulates order key entries table') : table = table' := by
  have hperm : table.Perm table' :=
    (List.perm_ext_iff_of_nodup htable.ascending.nodup htable'.ascending.nodup).2 fun entry =>
      (htable.mem_iff entry).trans (htable'.mem_iff entry).symm
  refine hperm.eq_of_pairwise (fun first second _ _ hlt hgt => ?_) htable.ascending
    htable'.ascending
  exact absurd hgt (Std.OrientedCmp.not_lt_of_lt hlt)

theorem Tabulates.subset (htable : Tabulates order key entries table) : table ⊆ entries :=
  fun entry hentry => ((htable.mem_iff entry).1 hentry).mem

theorem Tabulates.length_le (htable : Tabulates order key entries table) :
    table.length ≤ entries.length :=
  htable.ascending.nodup.length_le_of_subset htable.subset

/-- Without repeated keys a table depends on which entries there are, and not on their order. -/
theorem Tabulates.of_perm {entries' : List α} (htable : Tabulates order key entries table)
    (hnodup : (entries.map key).Nodup) (hperm : entries'.Perm entries) :
    Tabulates order key entries' table := by
  have hnodup' : (entries'.map key).Nodup := (hperm.map key).nodup_iff.2 hnodup
  refine ⟨htable.ascending, fun entry => ?_⟩
  rw [htable.mem_iff, lastOf_iff_mem hnodup, lastOf_iff_mem hnodup', hperm.mem_iff]

/-- Puts an entry into a table, in the place of the one with the same key, if there is one. -/
def insertBy (order : KeyOrder) (key : α → Value) (entry : α) : List α → List α
  | [] => [entry]
  | other :: rest =>
    match order.cmp (key entry) (key other) with
    | .lt => entry :: other :: rest
    | .eq => entry :: rest
    | .gt => other :: insertBy order key entry rest

theorem mem_insertBy_iff {e : α} (hascending : Ascending order key table) :
    e ∈ insertBy order key entry table ↔ e = entry ∨ e ∈ table ∧ key e ≠ key entry := by
  induction table with
  | nil => simp [insertBy]
  | cons other rest ih =>
    obtain ⟨hother, hrest⟩ := List.pairwise_cons.1 hascending
    -- Keys that come after a greater or equal one are other keys.
    have hlater : order.cmp (key entry) (key other) ≠ .gt → ∀ e ∈ rest, key e ≠ key entry := by
      intro hle e he heq
      have hlt := hother e he
      rw [heq] at hlt
      exact hle (Std.OrientedCmp.gt_of_lt hlt)
    rw [insertBy]
    cases hcmp : order.cmp (key entry) (key other) with
    | lt =>
      have hne : key other ≠ key entry := by
        intro heq
        rw [heq] at hcmp
        exact Std.OrientedCmp.not_lt_of_lt hcmp hcmp
      have hkeys : ∀ e ∈ other :: rest, key e ≠ key entry :=
        List.forall_mem_cons.2 ⟨hne, hlater (by rw [hcmp]; nofun)⟩
      rw [List.mem_cons]
      exact or_congr_right (iff_self_and.2 (hkeys e))
    | eq =>
      have heq := Std.LawfulEqCmp.compare_eq_iff_eq.1 hcmp
      have hkeys := hlater (by rw [hcmp]; nofun)
      rw [List.mem_cons, List.mem_cons]
      refine or_congr_right ⟨fun he => ⟨.inr he, hkeys e he⟩, ?_⟩
      rintro ⟨rfl | he, hne⟩
      · exact absurd heq.symm hne
      · exact he
    | gt =>
      have hne : key other ≠ key entry := by
        intro heq
        rw [heq] at hcmp
        exact Std.OrientedCmp.not_gt_of_gt hcmp hcmp
      rw [List.mem_cons, List.mem_cons, ih hrest]
      constructor
      · rintro (rfl | rfl | ⟨he, hkey⟩)
        · exact .inr ⟨.inl rfl, hne⟩
        · exact .inl rfl
        · exact .inr ⟨.inr he, hkey⟩
      · rintro (rfl | ⟨rfl | he, hkey⟩)
        · exact .inr (.inl rfl)
        · exact .inl rfl
        · exact .inr (.inr ⟨he, hkey⟩)

theorem Ascending.insertBy (entry : α) (hascending : Ascending order key table) :
    Ascending order key (insertBy order key entry table) := by
  induction table with
  | nil => exact List.pairwise_singleton _ _
  | cons other rest ih =>
    obtain ⟨hother, hrest⟩ := List.pairwise_cons.1 hascending
    rw [Scale.insertBy]
    cases hcmp : order.cmp (key entry) (key other) with
    | lt =>
      refine List.pairwise_cons.2 ⟨fun e he => ?_, hascending⟩
      rcases List.mem_cons.1 he with rfl | he
      · exact hcmp
      · exact Std.TransCmp.lt_trans hcmp (hother e he)
    | eq =>
      have heq := Std.LawfulEqCmp.compare_eq_iff_eq.1 hcmp
      refine List.pairwise_cons.2 ⟨fun e he => ?_, hrest⟩
      rw [heq]
      exact hother e he
    | gt =>
      refine List.pairwise_cons.2 ⟨fun e he => ?_, ih hrest⟩
      rcases (mem_insertBy_iff hrest).1 he with rfl | ⟨he, _⟩
      · exact Std.OrientedCmp.lt_of_gt hcmp
      · exact hother e he

/-- Inserting entries one by one tabulates them. -/
theorem tabulates_foldl (order : KeyOrder) (key : α → Value) (entries : List α) :
    Tabulates order key entries
      (entries.foldl (fun table entry => insertBy order key entry table) []) := by
  have hfold : ∀ table : List α, Ascending order key table →
      Ascending order key (entries.foldl (fun table entry => insertBy order key entry table) table) ∧
      ∀ e, e ∈ entries.foldl (fun table entry => insertBy order key entry table) table ↔
        LastOf key entries e ∨ e ∈ table ∧ ∀ later ∈ entries, key later ≠ key e := by
    induction entries with
    | nil =>
      intro table htable
      refine ⟨htable, fun e => ⟨fun he => .inr ⟨he, nofun⟩, ?_⟩⟩
      rintro (hlast | ⟨he, _⟩)
      · exact nomatch hlast.mem
      · exact he
    | cons entry entries ih =>
      intro table htable
      obtain ⟨hascending, hmem⟩ := ih _ (htable.insertBy entry)
      refine ⟨hascending, fun e => (hmem e).trans ?_⟩
      rw [mem_insertBy_iff htable, lastOf_cons_iff, List.forall_mem_cons]
      constructor
      · rintro (hlast | ⟨rfl | ⟨he, hne⟩, hlater⟩)
        · exact .inl (.inl hlast)
        · exact .inl (.inr ⟨rfl, hlater⟩)
        · exact .inr ⟨he, hne.symm, hlater⟩
      · rintro ((hlast | ⟨rfl, hlater⟩) | ⟨he, hne, hlater⟩)
        · exact .inl hlast
        · exact .inr ⟨.inl rfl, hlater⟩
        · exact .inr ⟨.inr ⟨he, hne.symm⟩, hlater⟩
  obtain ⟨hascending, hmem⟩ := hfold [] .nil
  refine ⟨hascending, fun e => (hmem e).trans ⟨?_, .inl⟩⟩
  rintro (hlast | ⟨he, _⟩)
  · exact hlast
  · cases he

/-- A set lists its items. -/
theorem tabulates_setOfList (order : KeyOrder) (items : List Value) :
    Tabulates order id items (order.setOfList items) := by
  have hinsert : ∀ item set, order.insertItem item set = insertBy order id item set := by
    intro item set
    induction set with
    | nil => rfl
    | cons other rest ih =>
      rw [KeyOrder.insertItem, insertBy, ← ih]
      cases hcmp : order.cmp item other with
      | lt => simp only [id, hcmp]
      | eq =>
        obtain rfl := Std.LawfulEqCmp.compare_eq_iff_eq.1 hcmp
        simp only [id, hcmp]
      | gt => simp only [id, hcmp]
  simp only [KeyOrder.setOfList, hinsert]
  exact tabulates_foldl order id items

/-- The set of strictly sorted items is the list of them. -/
theorem setOfList_of_sorted {items : List Value} (hsorted : Ascending order id items) :
    order.setOfList items = items :=
  (tabulates_setOfList order items).unique (.self hsorted)

/-- The value of an entry of a map. -/
def Value.ofEntry (entry : Value × Value) : Value :=
  .list [entry.1, entry.2]

/-- The key of such a value. -/
def Value.entryKey : Value → Value
  | list (key :: _) => key
  | v => v

/-- A map lists its entries by their keys. -/
theorem tabulates_mapOfEntries (order : KeyOrder) (entries : List (Value × Value)) :
    Tabulates order Value.entryKey (entries.map Value.ofEntry)
      ((order.mapOfEntries entries).map Value.ofEntry) := by
  have hinsert : ∀ (entry : Value × Value) map,
      (order.insertEntry entry.1 entry.2 map).map Value.ofEntry =
        insertBy order Value.entryKey (Value.ofEntry entry) (map.map Value.ofEntry) := by
    intro entry map
    induction map with
    | nil => rfl
    | cons other rest ih =>
      have hkeys : order.cmp (Value.ofEntry entry).entryKey (Value.ofEntry other).entryKey =
          order.cmp entry.1 other.1 := rfl
      rw [KeyOrder.insertEntry, List.map_cons, insertBy, hkeys, ← ih]
      cases hcmp : order.cmp entry.1 other.1 with
      | lt => rfl
      | eq =>
        have hkey := Std.LawfulEqCmp.compare_eq_iff_eq.1 hcmp
        simp only [List.map_cons, Value.ofEntry, hkey]
      | gt => rfl
  have htable := tabulates_foldl order Value.entryKey (entries.map Value.ofEntry)
  rw [List.foldl_map] at htable
  have hmap : entries.foldl
      (fun table entry => insertBy order Value.entryKey (Value.ofEntry entry) table)
        (List.map Value.ofEntry []) =
      (entries.foldl (fun map entry => order.insertEntry entry.1 entry.2 map) []).map Value.ofEntry :=
    List.foldl_hom (List.map Value.ofEntry) fun map entry => (hinsert entry map).symm
  rw [List.map_nil] at hmap
  rwa [hmap] at htable

/-- The map of entries that are strictly sorted by key is the list of them. -/
theorem mapOfEntries_of_sorted {entries : List (Value × Value)}
    (hsorted : entries.Pairwise fun first second => order.cmp first.1 second.1 = .lt) :
    order.mapOfEntries entries = entries := by
  have hascending : Ascending order Value.entryKey (entries.map Value.ofEntry) :=
    List.pairwise_map.2 hsorted
  have hinjective : ∀ entry other, Value.ofEntry entry = Value.ofEntry other → entry = other := by
    rintro ⟨k, v⟩ ⟨k', v'⟩ heq
    simpa [Value.ofEntry] using heq
  exact (List.map_inj_right hinjective).1
    ((tabulates_mapOfEntries order entries).unique (.self hascending))

end Scale
