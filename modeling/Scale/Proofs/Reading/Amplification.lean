import Scale.Catalogue
import Scale.Proofs.Reading.Along

namespace Scale

variable {ι : Type} {defs : Definitions ι Empty} {source after : Source} {s t item : Schema ι Empty}
  {v w : Value}

namespace Reader

/-- A counted run has as many items as its count says, which is bounded by the bytes behind it or, for
    items without size, by a fixed number. -/
theorem count_of_takeCounted {α : Type} {step : Reader α} {itemSize limit : Nat} {items : List α}
    (hrun : takeCounted itemSize limit step source = .ok items after) :
    ∃ rest : List UInt8, source.bytes = source.scheme.spelling items.length ++ rest ∧
      (itemSize = 0 → items.length ≤ maxZeroSized) ∧ (itemSize ≠ 0 → items.length ≤ rest.length) := by
  obtain ⟨count, middle, hcount, hitems⟩ := Step.bind_eq_ok_iff.1 hrun
  obtain ⟨rest, _, _, hbytes, rfl⟩ := bytes_of_takeItemCount hcount
  obtain ⟨hmemory, hroom⟩ := room_of_takeItemCount hcount
  rw [Source.bytes_withBytes] at hroom
  rw [length_of_readMany hitems]
  refine ⟨rest, hbytes, fun hsize => ?_, hroom⟩
  rwa [hsize] at hmemory

end Reader

/-- The number of items that a value counts itself. -/
def Schema.itemCount {ω : Type} (s : Schema ι ω) (v : Value) : Nat :=
  if s.counted?.isSome then v.items.length else 0

/-- A collection takes a byte for its count. -/
theorem Schema.charge_of_counted (hcounted : t.counted? = some item) : t.charge w = 1 := by
  cases t with
  | sequence _ _ => rfl
  | set _ _ => rfl
  | map _ _ _ => rfl
  | _ => cases hcounted

namespace Definitions

open Reader

/-- An optional truth value takes one byte in all. -/
theorem total_charge_packed (v : Value) : defs.total Schema.charge (.option .bool) v = 1 := by
  rw [total_eq]
  cases v with
  | present w =>
    have hcontent : defs.total Schema.charge .bool w = 1 := total_eq ..
    simp only [components, List.map_cons, List.map_nil, hcontent]
    rfl
  | _ => rfl

/-- The bytes that are taken pay for all that is within the value. -/
theorem total_charge_le (hwell : defs.WellFormed s) (hread : defs.read s source = .ok v after) :
    after.bytes.length + defs.total Schema.charge s v ≤ source.bytes.length := by
  induction s, v using defs.valueInduction generalizing source after with
  | step s v ih =>
    by_cases hpacked : s = .option .bool
    · obtain rfl := hpacked
      rw [read_packed defs rfl] at hread
      rw [total_charge_packed]
      exact leads_takePacked hread
    · obtain ⟨middle, parts, _, hcharge, hparts, hperm⟩ :=
        sharesOut_of_read (hwell s (.refl s)) hpacked hread
      have hsum := hparts.sum_le (fun part => defs.total Schema.charge part.1 part.2)
        fun part hmem before stop hrun => by
          have hpart := partOf_of_mem_components (hperm.mem_iff.1 hmem)
          exact ih part.1 part.2 hpart (hpart.forall_occurs hwell) hrun
      rw [(hperm.map _).sum_eq] at hsum
      rw [total_eq]
      omega

/-- A collection within a value that is read has been read from somewhere on the way. -/
theorem exists_read_of_within (hwell : defs.WellFormed s) (hread : defs.read s source = .ok v after)
    (hwithin : defs.Within s v t w) (hcounted : t.counted? = some item) :
    ∃ before stop, source.Reaches before ∧ defs.read t before = .ok w stop := by
  induction hwithin generalizing source after with
  | refl s v => exact ⟨source, after, .refl source, hread⟩
  | @step s u t v x w hpart hwithin ih =>
    by_cases hpacked : s = .option .bool
    · -- There are no collections in a truth value.
      obtain rfl := hpacked
      cases hpart with
      | content =>
        cases hwithin with
        | refl => cases hcounted
        | step hnone => cases hnone
    · obtain ⟨middle, parts, hmiddle, _, hparts, hperm⟩ :=
        sharesOut_of_read (hwell s (.refl s)) hpacked hread
      obtain ⟨start, stop, hstart, hrun⟩ :=
        hparts.exists_of_mem (hperm.mem_iff.2 (mem_components_iff.2 hpart))
      obtain ⟨before, last, hbefore, hlast⟩ := ih (hpart.forall_occurs hwell) hrun hcounted
      exact ⟨before, last, (hmiddle.trans hstart).trans hbefore, hlast⟩

/-- A collection has no more items than it has counted, and there was a byte for each of them behind the
    count unless they have no size. -/
theorem items_of_read (hcounted : t.counted? = some item) (hread : defs.read t source = .ok w after) :
    ∃ count rest, source.bytes = source.scheme.spelling count ++ rest ∧ w.items.length ≤ count ∧
      (item.size defs.layout = 0 → count ≤ maxZeroSized) ∧
      (item.size defs.layout ≠ 0 → count ≤ rest.length) := by
  cases t with
  | sequence kind inner =>
    obtain rfl := Option.some.inj hcounted
    rw [read_sequence] at hread
    obtain ⟨vs, hvs, rfl⟩ := Step.map_eq_ok_iff.1 hread
    obtain ⟨rest, hbytes, hbound⟩ := count_of_takeCounted hvs
    exact ⟨vs.length, rest, hbytes, Nat.le_refl _, hbound⟩
  | set keys inner =>
    obtain rfl := Option.some.inj hcounted
    rw [read_set] at hread
    obtain ⟨vs, hvs, rfl⟩ := Step.map_eq_ok_iff.1 hread
    obtain ⟨rest, hbytes, hbound⟩ := count_of_takeCounted hvs
    exact ⟨vs.length, rest, hbytes, (tabulates_setOfList keys.order vs).length_le, hbound⟩
  | map keys key value =>
    obtain rfl := Option.some.inj hcounted
    rw [read_map] at hread
    obtain ⟨entries, hentries, rfl⟩ := Step.map_eq_ok_iff.1 hread
    obtain ⟨rest, hbytes, hbound⟩ := count_of_takeCounted hentries
    have hlength := (tabulates_mapOfEntries keys.order entries).length_le
    have hentries : (entries.map Value.ofEntry).length = entries.length := List.length_map _
    exact ⟨entries.length, rest, hbytes, hentries ▸ hlength, hbound⟩
  | _ => cases hcounted

/-- The byte of its count pays for the items of a collection. -/
theorem itemCount_le (hwell : defs.WellFormed s) (hread : defs.read s source = .ok v after)
    (hwithin : defs.Within s v t w) :
    t.itemCount w ≤ t.charge w * max maxZeroSized source.bytes.length := by
  unfold Schema.itemCount
  cases hcounted : t.counted? with
  | none => exact Nat.zero_le _
  | some item =>
    obtain ⟨before, stop, hbefore, hrun⟩ := exists_read_of_within hwell hread hwithin hcounted
    obtain ⟨count, rest, hbytes, hcount, hsizeless, hsized⟩ := items_of_read hcounted hrun
    have hrest := hbefore.length_le
    rw [hbytes, List.length_append] at hrest
    have hbound : count ≤ max maxZeroSized source.bytes.length := by
      by_cases hsize : item.size defs.layout = 0
      · exact Nat.le_trans (hsizeless hsize) (Nat.le_max_left _ _)
      · have hle := hsized hsize
        exact Nat.le_trans (by omega) (Nat.le_max_right _ _)
    rw [Schema.charge_of_counted hcounted, Nat.one_mul]
    exact Nat.le_trans hcount hbound

/-- What is read holds, in all collections within it, no more items for every byte that was taken than
    there are bytes, or than the fixed number for items without size. Each collection was read somewhere
    on the way, and wherever it is read it has no more items than there are bytes behind its count, or
    than that number. -/
theorem items_bounded (hwell : defs.WellFormed s) (hread : defs.read s source = .ok v after) :
    (∃ taken : List UInt8, source.bytes = taken ++ after.bytes ∧
      defs.total Schema.itemCount s v ≤ taken.length * max 65536 source.bytes.length) ∧
    ∀ t w item, defs.Within s v t w → t.counted? = some item →
      (∃ before stop, source.Reaches before ∧ defs.read t before = .ok w stop) ∧
      ∀ before stop, defs.read t before = .ok w stop → ∃ count rest,
        before.bytes = before.scheme.spelling count ++ rest ∧ w.items.length ≤ count ∧
        (item.size defs.layout = 0 → count ≤ 65536) ∧
        (item.size defs.layout ≠ 0 → count ≤ rest.length) := by
  refine ⟨?_, fun t w item hwithin hcounted =>
    ⟨exists_read_of_within hwell hread hwithin hcounted, fun before stop => items_of_read hcounted⟩⟩
  obtain ⟨taken, rest, hbytes, rfl⟩ := (defs.takesPrefix_read s).reaches hread
  refine ⟨taken, by rw [Source.bytes_withBytes, hbytes], ?_⟩
  have hpaid := total_charge_le hwell hread
  rw [Source.bytes_withBytes, hbytes, List.length_append, Nat.add_comm] at hpaid
  calc defs.total Schema.itemCount s v
      ≤ defs.total (fun t w => t.charge w * max maxZeroSized source.bytes.length) s v :=
        total_le_total fun t w hwithin => itemCount_le hwell hread hwithin
    _ = defs.total Schema.charge s v * max maxZeroSized source.bytes.length := defs.total_mul ..
    _ ≤ taken.length * max maxZeroSized source.bytes.length :=
        Nat.mul_le_mul_right _ (Nat.le_of_add_le_add_right hpaid)

section

open Catalogue

/-- Lists of lists of items that take no bytes. -/
def unitLists : Schema Empty Empty :=
  vector (vector .unit)

/-- Two lists of three units each. -/
def sixUnits : Value :=
  .list [.list [.unit, .unit, .unit], .list [.unit, .unit, .unit]]

/-- Two lists and six units come of three bytes. -/
theorem items_bounded_sixUnits : none.WellFormed unitLists ∧
    none.read unitLists (.slice [8, 12, 12]) = .ok sixUnits (.slice []) ∧
    none.total Schema.itemCount unitLists sixUnits ≤ 3 * 65536 ∧
    ∃ before stop, (Source.slice [8, 12, 12]).Reaches before ∧
      none.read (vector .unit) before = .ok (.list [.unit, .unit, .unit]) stop := by
  have hunit : none.WellFormed (.unit : Schema Empty Empty) :=
    forall_occurs_of_parts nofun trivial nofun
  have hunits : none.WellFormed (vector .unit : Schema Empty Empty) :=
    forall_occurs_of_parts nofun trivial (List.forall_mem_singleton.2 hunit)
  have hwell : none.WellFormed unitLists :=
    forall_occurs_of_parts nofun trivial (List.forall_mem_singleton.2 hunits)
  have hread : none.read unitLists (.slice [8, 12, 12]) = .ok sixUnits (.slice []) := rfl
  obtain ⟨⟨taken, hbytes, htotal⟩, hall⟩ := items_bounded hwell hread
  obtain rfl : [8, 12, 12] = taken := by simpa [Source.bytes] using hbytes
  have hwithin : none.Within unitLists sixUnits (vector .unit) (.list [.unit, .unit, .unit]) :=
    .step (.item (List.mem_cons_self ..)) (.refl _ _)
  exact ⟨hwell, hread, htotal, (hall _ _ .unit hwithin rfl).1⟩

end

end Definitions

end Scale
