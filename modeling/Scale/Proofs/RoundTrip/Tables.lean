import Mathlib.Data.Nat.Find
import Scale.Catalogue
import Scale.Proofs.Reading.Stability
import Scale.Proofs.Reading.Tables
import Scale.Proofs.RoundTrip.Rereading

namespace Scale.Definitions

open Reader Writer

variable {ι : Type} {defs : Definitions ι Empty} {s entry : Schema ι Empty} {source : Source}
  {es us table : List Value}

/-- Reading takes just these bytes and gives the value where at least `needed` bytes follow them. Where
    fewer do, it asks for more. -/
def ReadsBefore (defs : Definitions ι Empty) (scheme : Scheme) (s : Schema ι Empty) (needed : Nat)
    (bytes : List UInt8) (v : Value) : Prop :=
  ∀ (source : Source) (rest : List UInt8), source.scheme = scheme → source.bytes = bytes ++ rest →
    (needed ≤ rest.length → defs.read s source = .ok v (source.withBytes rest)) ∧
      (rest.length < needed → ∃ after, defs.read s source = .error .notEnoughData after)

/-- What is read where enough bytes follow is read wherever some least number of them does. -/
theorem exists_readsBefore {scheme : Scheme} {room : Nat} {bytes : List UInt8} {v : Value}
    (hyields : YieldsBefore scheme room (defs.read s) bytes v) :
    ∃ needed ≤ room, (YieldsBefore scheme 0 (defs.read s) bytes v → needed = 0) ∧
      defs.ReadsBefore scheme s needed bytes v := by
  classical
  have hexists : ∃ needed, YieldsBefore scheme needed (defs.read s) bytes v := ⟨room, hyields⟩
  refine ⟨Nat.find hexists, Nat.find_min' hexists hyields,
    fun hzero => Nat.le_zero.1 (Nat.find_min' hexists hzero), fun source rest hscheme hbytes =>
      ⟨Nat.find_spec hexists source rest hscheme hbytes, fun hless => ?_⟩⟩
  -- With more bytes the value is read, so that there are too few of them if it is not.
  let more : List UInt8 := List.replicate room 0
  have hextended : defs.read s (source.extend more) =
      .ok v ((source.extend more).withBytes (rest ++ more)) :=
    hyields _ (rest ++ more) ((source.scheme_extend more).trans hscheme)
      (by rw [Source.bytes_extend, hbytes, List.append_assoc]) (by simp [more])
  cases hrun : defs.read s source with
  | ok w after =>
    rw [(defs.extends_read more s).ok hrun] at hextended
    obtain ⟨rfl, hafter⟩ := EStateM.Result.ok.inj hextended
    obtain ⟨_, taken, htaken, hbefore⟩ := defs.persists_read s hrun
    have hrest : after.bytes = rest := by
      have hsame := congrArg Source.bytes hafter
      rw [Source.bytes_extend, Source.bytes_withBytes] at hsame
      exact List.append_cancel_right hsame
    rw [hrest, hbytes] at htaken
    obtain rfl := List.append_cancel_right htaken
    rw [hscheme, hrest] at hbefore
    exact absurd hbefore (Nat.find_min hexists hless)
  | error e after =>
    by_cases hdata : e = .notEnoughData
    · exact ⟨after, by rw [hdata]⟩
    · rw [(defs.extends_read more s).error hrun hdata] at hextended
      cases hextended

/-- Entries that were read one by one off a source, with room in it for as many. -/
structure Accepted (defs : Definitions ι Empty) (entry : Schema ι Empty) (source : Source)
    (es : List Value) : Prop where
  fits : es.length ≤ maxItems (entry.size defs.layout)
  room : entry.size defs.layout ≠ 0 → es.length ≤ source.bytes.length
  gives : ∀ e ∈ es, GivesUnder source (defs.read entry) e

theorem accepted_of_read {after : Source}
    (hrun : defs.read (.sequence .vector entry) source = .ok (.list es) after) :
    defs.Accepted entry source es := by
  rw [read_sequence] at hrun
  obtain ⟨vs, hvs, heq⟩ := Step.map_eq_ok_iff.1 hrun
  obtain rfl := Value.list.inj heq
  obtain ⟨_, hfits, hroom, hgives⟩ := items_of_takeCounted (defs.takesPrefix_read entry) hvs
  exact ⟨hfits, hroom, hgives⟩

theorem Accepted.of_subset (haccepted : defs.Accepted entry source es) (hsubset : us ⊆ es)
    (hlength : us.length ≤ es.length) : defs.Accepted entry source us where
  fits := Nat.le_trans hlength haccepted.fits
  room hsize := Nat.le_trans hlength (haccepted.room hsize)
  gives u hu := haccepted.gives u (hsubset hu)

theorem Dense.vector (hdense : defs.Dense s) (hentry : s.counted? = some entry) :
    defs.Dense (.sequence .vector entry) := by
  intro t hoccurs item hitem
  cases hoccurs with
  | refl => exact hdense s (.refl s) item (hentry.trans hitem)
  | part hpart hoccurs =>
    obtain rfl := List.mem_singleton.1 hpart
    exact hdense.counted hentry t hoccurs item hitem

section

variable (hwell : defs.WellFormed entry) (hfree : defs.TableFree entry)
  (hcoded : ∀ t, defs.Occurs entry t → t.FullyCoded)
include hwell hfree hcoded

/-- Entries that were read one by one are read as a vector off the bytes of the vector. -/
theorem Accepted.yields (haccepted : defs.Accepted entry source us) {wire : List UInt8}
    (hwire : Emits source.scheme (defs.write (.sequence .vector entry) (.list us)) wire)
    {room : Nat} (henough : defs.Dense (.sequence .vector entry) ∨ source.bytes.length ≤ room) :
    YieldsBefore source.scheme room (defs.read (.sequence .vector entry)) wire (.list us) := by
  have hlimit := Nat.le_trans haccepted.fits (maxItems_le_maxCount _)
  have hitems : ∀ u ∈ us, ∀ xs, Emits source.scheme (defs.write entry u) xs →
      YieldsBefore source.scheme room (defs.read entry) xs u := by
    intro u hu xs hxs
    rcases henough with hdense | hroom
    · have hyields := yields_of_gives hwell hfree hcoded (hdense.counted rfl)
        (haccepted.gives u hu) hxs
      exact hyields.before room
    · exact (yieldsBefore_of_gives hwell hfree (haccepted.gives u hu) hxs).mono hroom
  have hcount : entry.size defs.layout ≠ 0 → ∀ payload,
      Emits source.scheme (us.forM (defs.write entry)) payload →
        us.length ≤ payload.length + room := by
    intro hsize payload hpayload
    rcases henough with hdense | hroom
    · have hnonempty : ∀ u ∈ us, ∀ xs, Emits source.scheme (defs.write entry u) xs → xs ≠ [] := by
        rintro u hu xs hxs rfl
        exact nonempty_of_gives hwell hfree (hdense _ (.refl _) entry rfl hsize)
          (haccepted.gives u hu) (defs.encodeFull_eq_ok_iff.2 hxs) rfl
      have hle := Restores.length_le_of_emits (fun u _ => defs.uniform_write entry u) hnonempty
        hpayload
      omega
    · have hle := haccepted.room hsize
      omega
  rw [write_sequence] at hwire
  rw [read_sequence]
  exact (YieldsBefore.takeCounted (defs.uniform_write entry) hlimit haccepted.fits hitems hwire
    hcount).map

/-- Off the bytes of entries that were read one by one, a set or map is read as the table of them. -/
theorem Accepted.exists_readsBefore (htable : s.IsTable) (hentry : s.counted? = some entry)
    (haccepted : defs.Accepted entry source us) {wire : List UInt8}
    (hwire : Emits source.scheme (defs.write (.sequence .vector entry) (.list us)) wire)
    (htabulates : Tabulates s.keyOrder s.keyOf us table) :
    ∃ needed ≤ source.bytes.length, (defs.Dense s → needed = 0) ∧
      defs.ReadsBefore source.scheme s needed wire (.list table) := by
  have hyields : ∀ {room : Nat}, defs.Dense s ∨ source.bytes.length ≤ room →
      YieldsBefore source.scheme room (defs.read s) wire (.list table) := by
    intro room henough other rest hscheme hbytes hroom
    have hvector := haccepted.yields hwell hfree hcoded hwire
      (henough.imp_left fun hdense => hdense.vector hentry)
    exact (read_table_iff htable hentry).2
      ⟨us, table, hvector other rest hscheme hbytes hroom, htabulates, rfl⟩
  obtain ⟨needed, hle, hzero, hreads⟩ :=
    Definitions.exists_readsBefore (hyields (.inr (Nat.le_refl _)))
  exact ⟨needed, hle, fun hdense => hzero (hyields (.inl hdense)), hreads⟩

end

/-- A set or map that is read off the bytes of entries holds the last entry of each key. It is read off
    the bytes of the same entries in any other order as well, as long as no key is repeated, and off
    those of what it holds in whatever order. What is written for it has the entries in the order of
    their keys; these are the bytes that were read if and only if the keys were in order, and the same
    set or map is read off them. All this holds where enough bytes follow. None need to where items
    that take memory take bytes as well, but elsewhere a count may ask for bytes that the items do not
    have, and where they do not follow reading asks for more. -/
theorem read_entries (source : Source) (htable : s.IsTable) (hentry : s.counted? = some entry)
    (hwell : defs.WellFormed entry) (hfree : defs.TableFree entry)
    (hcoded : ∀ t, defs.Occurs entry t → t.FullyCoded) (htypes : ∀ e ∈ es, defs.HasType entry e)
    {wire : Array UInt8} {rest : List UInt8} {after : Source} {v : Value}
    (hwire : defs.encodeFull source.scheme (.sequence .vector entry) (.list es) = .ok wire)
    (hbytes : source.bytes = wire.toList ++ rest) (hrun : defs.read s source = .ok v after) :
    ∃ table, v = .list table ∧ after = source.withBytes rest ∧
      Tabulates s.keyOrder s.keyOf es table ∧
      (∀ es', es'.Perm es → (es.map s.keyOf).Nodup → ∃ bytes,
        defs.encodeFull source.scheme (.sequence .vector entry) (.list es') = .ok bytes ∧
        ∃ needed ≤ source.bytes.length, (defs.Dense s → needed = 0) ∧
          defs.ReadsBefore source.scheme s needed bytes.toList v) ∧
      (∀ es', es'.Perm table → ∃ bytes,
        defs.encodeFull source.scheme (.sequence .vector entry) (.list es') = .ok bytes ∧
        ∃ needed ≤ source.bytes.length, (defs.Dense s → needed = 0) ∧
          defs.ReadsBefore source.scheme s needed bytes.toList v) ∧
      ∃ normal, defs.encodeFull source.scheme (s.ofKind .sorted) v = .ok normal ∧
        defs.encodeFull source.scheme (.sequence .vector entry) (.list table) = .ok normal ∧
        (normal = wire ↔ Ascending s.keyOrder s.keyOf es) ∧
        ∃ needed ≤ source.bytes.length, (defs.Dense s → needed = 0) ∧
          defs.ReadsBefore source.scheme s needed normal.toList v := by
  have hemits := defs.encodeFull_eq_ok_iff.1 hwire
  obtain ⟨ds, table, hvector, htabulates, rfl⟩ := (read_table_iff htable hentry).1 hrun
  obtain ⟨rfl, rfl⟩ := eq_of_read_entries hwell hfree hcoded htypes hemits hbytes hvector
  have haccepted := accepted_of_read hvector
  have hrewritten : ∀ us, us ⊆ ds → us.length ≤ ds.length →
      Tabulates s.keyOrder s.keyOf us table → ∃ bytes,
        defs.encodeFull source.scheme (.sequence .vector entry) (.list us) = .ok bytes ∧
        ∃ needed ≤ source.bytes.length, (defs.Dense s → needed = 0) ∧
          defs.ReadsBefore source.scheme s needed bytes.toList (.list table) := by
    intro us hsubset hlength htable'
    have hcounted := hemits
    rw [write_sequence] at hcounted
    obtain ⟨bytes, hus⟩ := exists_emits_counted (defs.uniform_write entry) hcounted hsubset hlength
    rw [← defs.write_sequence .vector] at hus
    exact ⟨bytes.toArray, defs.encodeFull_eq_ok_iff.2 hus, (haccepted.of_subset hsubset
      hlength).exists_readsBefore hwell hfree hcoded htable hentry hus htable'⟩
  have hself := Tabulates.self htabulates.ascending
  refine ⟨table, rfl, rfl, htabulates, ?_, ?_, ?_⟩
  · intro es' hperm hnodup
    exact hrewritten es' hperm.subset (Nat.le_of_eq hperm.length_eq)
      (htabulates.of_perm hnodup hperm)
  · intro es' hperm
    refine hrewritten es' (fun e he => htabulates.subset (hperm.subset he)) ?_
      (hself.of_perm htabulates.ascending.nodup_keys hperm)
    exact Nat.le_trans (Nat.le_of_eq hperm.length_eq) htabulates.length_le
  · obtain ⟨normal, hnormal, hreads⟩ :=
      hrewritten table htabulates.subset htabulates.length_le hself
    have hlisted : ∀ e ∈ table, defs.HasType entry e := fun e he =>
      htypes e (htabulates.subset he)
    refine ⟨normal, ?_, hnormal, ?_, hreads⟩
    · have hform : ∀ e ∈ table, entry.Admits e := fun e he => hlisted e he _ _ (.refl _ _)
      rw [encodeFull_eq_ok_iff, write_table ((s.isTable_ofKind .sorted).2 htable)
        ((s.counted?_ofKind .sorted).trans hentry) hform]
      exact defs.encodeFull_eq_ok_iff.1 hnormal
    · constructor
      -- The bytes that were read are then those of the table, so that it is what they listed.
      · rintro rfl
        have hsame := (eq_of_read_entries hwell hfree hcoded hlisted
          (defs.encodeFull_eq_ok_iff.1 hnormal) hbytes hvector).1
        rw [hsame]
        exact htabulates.ascending
      · intro hascending
        obtain rfl := htabulates.unique (Tabulates.self hascending)
        exact Except.ok.inj (hnormal.symm.trans hwire)

theorem forall_occurs_entry {P : Schema ι Empty → Prop} {key value t : Schema ι Empty}
    (href : ∀ name, t ≠ .ref name) (hparts : t.parts = [key, value]) (ht : P t)
    (hkey : ∀ u, defs.Occurs key u → P u) (hvalue : ∀ u, defs.Occurs value u → P u) :
    ∀ u, defs.Occurs t u → P u := by
  refine forall_occurs_of_parts href ht fun part hpart => ?_
  rw [hparts] at hpart
  obtain rfl | hpart := List.mem_cons.1 hpart
  · exact hkey
  · obtain rfl := List.mem_singleton.1 hpart
    exact hvalue

theorem hasType_entry {key value : Schema ι Empty} {k w : Value} (hkey : defs.HasType key k)
    (hvalue : defs.HasType value w) : defs.HasType (.tuple [key, value]) (.list [k, w]) := by
  refine forall_within_of_parts rfl fun t x hpart => ?_
  cases hpart with
  | @component _ _ _ _ i hitem hx =>
    match i, hitem, hx with
    | 0, rfl, rfl => exact hkey
    | 1, rfl, rfl => exact hvalue

open Catalogue in
/-- A map whose keys are bytes in falling order. -/
def falling : Schema Empty Empty :=
  .map ⟨.sorted, .reverse .structural⟩ u8 u8

open Catalogue in
/-- A map of three entries, two of which have the same key. What is written for it is read back
    whatever follows. -/
theorem read_entries_repeated_key :
    none.encodeFull .classic falling (.list [.list [.int 2, .int 9], .list [.int 1, .int 5]]) =
        .ok #[8, 2, 9, 1, 5] ∧
      ∀ rest, none.read falling (.decoder .classic (.slice ([8, 2, 9, 1, 5] ++ rest))) =
        .ok (.list [.list [.int 2, .int 9], .list [.int 1, .int 5]])
          (.decoder .classic (.slice rest)) := by
  have hoccurs : ∀ {P : Schema Empty Empty → Prop} {t : Schema Empty Empty},
      t.parts = [u8, u8] → P t → P u8 → ∀ u, none.Occurs t u → P u := by
    intro P t hparts ht hbyte
    have hleaf : ∀ u, none.Occurs u8 u → P u := forall_occurs_of_parts nofun hbyte nofun
    exact forall_occurs_entry (fun name => name.elim) hparts ht hleaf hleaf
  have hdense : none.Dense falling := by
    refine dense_of_leads (hoccurs rfl ?_ nofun)
    rintro item ⟨⟩
    exact .inr rfl
  have htypes : ∀ e ∈ [Value.list [.int 2, .int 1], .list [.int 1, .int 5], .list [.int 2, .int 9]],
      none.HasType (.tuple [u8, u8] : Schema Empty Empty) e := by
    simp only [List.forall_mem_cons]
    exact ⟨hasType_entry (hasType_int rfl) (hasType_int rfl),
      hasType_entry (hasType_int rfl) (hasType_int rfl),
      hasType_entry (hasType_int rfl) (hasType_int rfl), nofun⟩
  have hwire : (none : Definitions Empty Empty).encodeFull .classic
      (.sequence .vector (.tuple [u8, u8]))
        (.list [.list [.int 2, .int 1], .list [.int 1, .int 5], .list [.int 2, .int 9]]) =
          .ok #[12, 2, 1, 1, 5, 2, 9] := rfl
  have hrun : none.read falling (.decoder .classic (.slice [12, 2, 1, 1, 5, 2, 9, 77])) =
      .ok (.list [.list [.int 2, .int 9], .list [.int 1, .int 5]])
        (.decoder .classic (.slice [77])) := rfl
  have hbytes : (Source.decoder .classic (.slice [12, 2, 1, 1, 5, 2, 9, 77])).bytes =
      (#[12, 2, 1, 1, 5, 2, 9] : Array UInt8).toList ++ [77] := rfl
  obtain ⟨_, _, _, _, _, _, normal, hnormal, _, _, needed, _, hzero, hreads⟩ :=
    read_entries (.decoder .classic (.slice [12, 2, 1, 1, 5, 2, 9, 77])) (s := falling) trivial rfl
      (hoccurs rfl trivial trivial) (hoccurs rfl nofun nofun) (hoccurs rfl trivial trivial) htypes
      hwire hbytes hrun
  have hshown : none.encodeFull .classic falling
      (.list [.list [.int 2, .int 9], .list [.int 1, .int 5]]) = .ok #[8, 2, 9, 1, 5] := rfl
  obtain rfl : normal = #[8, 2, 9, 1, 5] := Except.ok.inj (hnormal.symm.trans hshown)
  refine ⟨hshown, fun rest => ?_⟩
  have henough : needed ≤ rest.length := by
    rw [hzero hdense]
    exact Nat.zero_le _
  exact (hreads (.decoder .classic (.slice ([8, 2, 9, 1, 5] ++ rest))) rest rfl rfl).1 henough

open Catalogue in
/-- A key, and pointers that have nothing to point to. -/
def pointersEntry : Schema Empty Empty :=
  .tuple [u8, vector (.pointer .unit)]

open Catalogue in
theorem forall_occurs_pointersEntry {P : Schema Empty Empty → Prop} (hentry : P pointersEntry)
    (hbyte : P u8) (hvector : P (vector (.pointer .unit))) (hpointer : P (.pointer .unit))
    (hunit : P .unit) : ∀ t, none.Occurs pointersEntry t → P t := by
  have hpointers : ∀ t, none.Occurs (.pointer .unit) t → P t :=
    forall_occurs_of_parts nofun hpointer
      (List.forall_mem_singleton.2 (forall_occurs_of_parts nofun hunit nofun))
  have hvectors : ∀ t, none.Occurs (vector (.pointer .unit)) t → P t :=
    forall_occurs_of_parts nofun hvector (List.forall_mem_singleton.2 hpointers)
  exact forall_occurs_entry nofun rfl hentry (forall_occurs_of_parts nofun hbyte nofun) hvectors

theorem hasType_pointersEntry {n : Int} (count : Nat) (hn : FixedInt.contains .u8 n = true)
    (hcount : count ≤ maxCount) :
    none.HasType pointersEntry (.list [.int n, .list (List.replicate count .unit)]) := by
  refine hasType_entry (hasType_int hn) (forall_within_sequence ?_ fun v hv => ?_)
  · change (List.replicate count Value.unit).length ≤ maxCount
    rwa [List.length_replicate]
  · obtain rfl := List.eq_of_mem_replicate hv
    refine forall_within_of_parts trivial fun t w hpart => ?_
    cases hpart with
    | pointee => exact forall_within_of_parts rfl nofun

open Catalogue in
/-- Pointers to nothing take memory and no bytes, so that a count of two asks for two bytes that
    follow. The second entry has them if it comes first, and not in the order of the keys. -/
theorem not_read_entries :
    ¬ ∀ (s entry : Schema Empty Empty) (es es' : List Value) (wire normal : Array UInt8) (v : Value),
      s.IsTable → s.counted? = some entry → none.WellFormed entry → none.TableFree entry →
      (∀ t, none.Occurs entry t → t.FullyCoded) → (∀ e ∈ es, none.HasType entry e) →
      none.encodeFull .classic (.sequence .vector entry) (.list es) = .ok wire →
      none.read s (.decoder .classic (.slice wire.toList)) = .ok v (.decoder .classic (.slice [])) →
      es'.Perm es → (es.map s.keyOf).Nodup →
      none.encodeFull .classic (.sequence .vector entry) (.list es') = .ok normal →
      none.encodeFull .classic s v = .ok normal →
      none.read s (.decoder .classic (.slice normal.toList)) =
        .ok v (.decoder .classic (.slice [])) := by
  intro hreads
  have hwell : none.WellFormed pointersEntry :=
    forall_occurs_pointersEntry trivial trivial trivial trivial trivial
  have hfree : none.TableFree pointersEntry :=
    forall_occurs_pointersEntry nofun nofun nofun nofun nofun
  have hcoded : ∀ t, none.Occurs pointersEntry t → t.FullyCoded :=
    forall_occurs_pointersEntry trivial trivial trivial trivial trivial
  have htypes : ∀ e ∈ [Value.list [.int 2, .list [.unit, .unit]], .list [.int 1, .list []]],
      none.HasType pointersEntry e :=
    List.forall_mem_cons.2 ⟨hasType_pointersEntry 2 rfl (by decide),
      List.forall_mem_singleton.2 (hasType_pointersEntry 0 rfl (by decide))⟩
  have hrun := hreads (.map .sorted u8 (vector (.pointer .unit))) pointersEntry
    [.list [.int 2, .list [.unit, .unit]], .list [.int 1, .list []]]
    [.list [.int 1, .list []], .list [.int 2, .list [.unit, .unit]]] #[8, 2, 8, 1, 0]
    #[8, 1, 0, 2, 8] (.list [.list [.int 1, .list []], .list [.int 2, .list [.unit, .unit]]])
    trivial rfl hwell hfree hcoded htypes rfl rfl (.swap _ _ _)
    (by simp [Schema.keyOf, Value.entryKey]) rfl rfl
  cases hrun

end Scale.Definitions
