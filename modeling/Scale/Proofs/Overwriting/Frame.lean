import Scale.Proofs.Overwriting.Agreement

namespace Scale

/-- The value that a path of positions leads to. -/
def Value.at? : List Nat → Value → Option Value
  | [], v => some v
  | i :: path, v => v.items[i]?.bind (at? path)

theorem Value.at?_cons_eq_some_iff {i : Nat} {path : List Nat} {vs : List Value} {x : Value} :
    (list vs).at? (i :: path) = some x ↔ ∃ w, vs[i]? = some w ∧ w.at? path = some x :=
  Option.bind_eq_some_iff

theorem Value.at?_append (path path' : List Nat) (v : Value) :
    v.at? (path ++ path') = (v.at? path).bind (at? path') := by
  induction path generalizing v with
  | nil => rfl
  | cons i path ih =>
    rw [List.cons_append, at?, at?]
    cases v.items[i]? with
    | none => rfl
    | some w => exact ih w

namespace Definitions

variable {ι ω : Type}

/-- A schema is reached from another one by a path of positions through the coded fields of records,
    the components of tuples and the items of arrays. The records on the way are listed. -/
inductive Reaches (defs : Definitions ι ω) :
    Schema ι ω → List Nat → List (Schema ι ω) → Schema ι ω → Prop where
  | refl (s : Schema ι ω) : Reaches defs s [] [] s
  | field {labels selection fields field path records t} {i : Nat} : i ∈ selection.order →
    fields[i]? = some field → Reaches defs field path records t →
    Reaches defs (.record labels selection fields) (i :: path)
      (.record labels selection fields :: records) t
  | component {items item path records t} {i : Nat} : items[i]? = some item →
    Reaches defs item path records t → Reaches defs (.tuple items) (i :: path) records t
  | element {count item path records t} {i : Nat} : i < count →
    Reaches defs item path records t → Reaches defs (.array count item) (i :: path) records t
  | body {name path records t} : Reaches defs (defs.body name) path records t →
    Reaches defs (.ref name) path records t

variable {defs : Definitions ι ω} {s t : Schema ι ω} {path : List Nat} {records : List (Schema ι ω)}

/-- A path leads on through an item if it leads on from there. -/
theorem exists_within_cons {part : Schema ι ω} {vs : List Value} {i : Nat}
    (htype : defs.HasType s (.list vs)) (hlt : i < vs.length)
    (hpart : ∀ w, vs[i]? = some w → defs.PartOf s (.list vs) part w)
    (hreach : ∀ {w}, defs.HasType part w → ∃ x, w.at? path = some x ∧ defs.Within part w t x) :
    ∃ x, (Value.list vs).at? (i :: path) = some x ∧ defs.Within s (.list vs) t x := by
  have hw : vs[i]? = some vs[i] := List.getElem?_eq_getElem hlt
  obtain ⟨x, hx, hwithin⟩ := hreach (forall_within_part htype (hpart _ hw))
  exact ⟨x, Value.at?_cons_eq_some_iff.2 ⟨_, hw, hx⟩, .step (hpart _ hw) hwithin⟩

/-- A path leads to a value of the schema that it reaches. -/
theorem Reaches.exists_within (hreach : defs.Reaches s path records t) {v : Value}
    (htype : defs.HasType s v) : ∃ w, v.at? path = some w ∧ defs.Within s v t w := by
  induction hreach generalizing v with
  | refl s => exact ⟨v, rfl, .refl s v⟩
  | field hi hfield _ ih =>
    have hform := htype _ _ (.refl _ _)
    cases v with
    | list vs =>
      have hlt := hform.symm ▸ (List.getElem?_eq_some_iff.1 hfield).1
      exact exists_within_cons htype hlt (fun _ => .field hi hfield) ih
    | _ => cases hform
  | component hitem _ ih =>
    have hform := htype _ _ (.refl _ _)
    cases v with
    | list vs =>
      have hlt := hform.symm ▸ (List.getElem?_eq_some_iff.1 hitem).1
      exact exists_within_cons htype hlt (fun _ => .component hitem) ih
    | _ => cases hform
  | element hi _ ih =>
    have hform := htype _ _ (.refl _ _)
    cases v with
    | list vs =>
      exact exists_within_cons htype (hform.symm ▸ hi)
        (fun _ hw => .element (List.mem_of_getElem? hw)) ih
    | _ => cases hform
  | body _ ih =>
    obtain ⟨x, hx, hwithin⟩ := ih (forall_within_part htype .body)
    exact ⟨x, hx, .step .body hwithin⟩

/-- What a path leads to after a merge is what it leads to through an item that is merged. -/
theorem at?_cons_of_merged {part : Schema ι ω} {olds vs merged : List Value} {i : Nat}
    {was is x : Value} (hold : defs.HasType s (.list olds)) (hv : defs.HasType s (.list vs))
    (hpart : ∀ {ws : List Value} {w}, ws[i]? = some w → defs.PartOf s (.list ws) part w)
    (hmerged : ∀ o w, olds[i]? = some o → vs[i]? = some w →
      merged[i]? = some (defs.merge part o w))
    (hmerge : ∀ {o w}, defs.HasType part o → defs.HasType part w → o.at? path = some was →
      w.at? path = some is → (defs.merge part o w).at? path = some x)
    (hwas : (Value.list olds).at? (i :: path) = some was)
    (his : (Value.list vs).at? (i :: path) = some is) :
    (Value.list merged).at? (i :: path) = some x := by
  obtain ⟨o, ho, hbefore⟩ := Value.at?_cons_eq_some_iff.1 hwas
  obtain ⟨w, hw, hafter⟩ := Value.at?_cons_eq_some_iff.1 his
  exact Value.at?_cons_eq_some_iff.2 ⟨_, hmerged o w ho hw,
    hmerge (forall_within_part hold (hpart ho)) (forall_within_part hv (hpart hw)) hbefore hafter⟩

/-- At the end of a path the values are merged, unless a record on the way is replaced as a whole. -/
theorem Reaches.at?_merge (hreach : defs.Reaches s path records t) {old v was is : Value}
    (hold : defs.HasType s old) (hv : defs.HasType s v) (hwas : old.at? path = some was)
    (his : v.at? path = some is) : (defs.merge s old v).at? path =
      some (if ∃ record ∈ records, record.FullyCoded then is else defs.merge t was is) := by
  induction hreach generalizing old v with
  | refl s =>
    obtain rfl := Option.some.inj hwas
    obtain rfl := Option.some.inj his
    simp [Value.at?]
  | @field labels selection fields field path records t i hi hfield _ ih =>
    have hform := hv _ _ (.refl _ _)
    have hformOld := hold _ _ (.refl _ _)
    cases old with
    | list olds =>
      cases v with
      | list vs =>
        by_cases hcoded : (Schema.record labels selection fields).FullyCoded
        · rw [merge_record_of_fullyCoded defs hcoded, if_pos ⟨_, List.mem_cons_self, hcoded⟩]
          exact his
        · have hrecords : (∃ record ∈ Schema.record labels selection fields :: records,
              record.FullyCoded) ↔ ∃ record ∈ records, record.FullyCoded := by
            simp [hcoded]
          rw [merge_record defs hcoded, if_congr hrecords rfl rfl]
          refine at?_cons_of_merged hold hv (.field hi hfield) (fun o w ho hw => ?_) ih hwas his
          rw [defs.getElem?_mergeAll hformOld hform, hfield, ho, hw]
          exact congrArg some (if_pos (decide_eq_true hi))
      | _ => cases hform
    | _ => cases hformOld
  | component hitem _ ih =>
    have hform := hv _ _ (.refl _ _)
    have hformOld := hold _ _ (.refl _ _)
    cases old with
    | list olds =>
      cases v with
      | list vs =>
        rw [merge_tuple]
        refine at?_cons_of_merged hold hv (.component hitem) (fun o w ho hw => ?_) ih hwas his
        rw [defs.getElem?_mergeAll hformOld hform, hitem, ho, hw]
        rfl
      | _ => cases hform
    | _ => cases hformOld
  | element hi _ ih =>
    have hform := hv _ _ (.refl _ _)
    have hformOld := hold _ _ (.refl _ _)
    cases old with
    | list olds =>
      cases v with
      | list vs =>
        rw [merge_array]
        refine at?_cons_of_merged hold hv (fun hw => .element (List.mem_of_getElem? hw))
          (fun o w ho hw => ?_) ih hwas his
        rw [Value.getElem?_mergeItems, Value.items, ho, hw]
      | _ => cases hform
    | _ => cases hformOld
  | body _ ih =>
    rw [merge_ref]
    exact ih (forall_within_part hold .body) (forall_within_part hv .body) hwas his

/-- What is read for a field that is not coded is its default. -/
theorem at?_uncoded_of_read {ι : Type} {defs : Definitions ι Empty} {labels : Labels}
    {selection : Selection} {fields : List (Schema ι Empty)} {source after : Source} {v : Value}
    (hrun : defs.read (.record labels selection fields) source = .ok v after) {i : Nat}
    {field : Schema ι Empty} (hfield : fields[i]? = some field) (hi : i ∉ selection.order) :
    v.at? [i] = some (selection.default i) := by
  rw [read_record] at hrun
  obtain ⟨vs, _, rfl⟩ := Step.map_eq_ok_iff.1 hrun
  have hlt : i < fields.length := (List.getElem?_eq_some_iff.1 hfield).1
  refine Value.at?_cons_eq_some_iff.2 ⟨_, ?_, rfl⟩
  rw [Value.getElem?_place_of_not_mem hi, selection.getElem?_blank _ hlt]

/-- A field that is not coded is the old one after a merge. -/
theorem at?_uncoded_of_merge {labels : Labels} {selection : Selection} {fields : List (Schema ι ω)}
    {old v : Value} (hold : (Schema.record labels selection fields).Admits old)
    (hv : (Schema.record labels selection fields).Admits v) {i : Nat} {field : Schema ι ω}
    (hfield : fields[i]? = some field) (hi : i ∉ selection.order) :
    ∃ was, old.at? [i] = some was ∧
      (defs.merge (.record labels selection fields) old v).at? [i] = some was := by
  have hlt : i < fields.length := (List.getElem?_eq_some_iff.1 hfield).1
  have hcoded : ¬ (Schema.record labels selection fields).FullyCoded := fun hall => hi (hall i hlt)
  cases old with
  | list olds =>
    cases v with
    | list vs =>
      obtain ⟨was, hwas⟩ : ∃ was, olds[i]? = some was :=
        ⟨_, List.getElem?_eq_getElem (hold.symm ▸ hlt)⟩
      obtain ⟨w, hw⟩ : ∃ w, vs[i]? = some w := ⟨_, List.getElem?_eq_getElem (hv.symm ▸ hlt)⟩
      have hmerged : (defs.mergeAll (· ∈ selection.order) fields olds vs)[i]? = some was := by
        rw [defs.getElem?_mergeAll hold hv, hfield, hwas, hw]
        exact congrArg some (if_neg (mt of_decide_eq_true hi))
      rw [merge_record defs hcoded]
      exact ⟨was, Value.at?_cons_eq_some_iff.2 ⟨was, hwas, rfl⟩,
        Value.at?_cons_eq_some_iff.2 ⟨was, hmerged, rfl⟩⟩
    | _ => cases hv
  | _ => cases hold

/-- A field that is not coded keeps its value when something is read over it, unless it lies within
    a record all of whose fields are coded. Then it takes its default. -/
theorem overwrite_uncoded {ι : Type} {defs : Definitions ι Empty} {s : Schema ι Empty}
    {path : List Nat} {records : List (Schema ι Empty)} {labels : Labels} {selection : Selection}
    {fields : List (Schema ι Empty)} {old new : Value} {source after : Source}
    (hwell : defs.WellFormed s) (htype : defs.HasType s old)
    (hrun : defs.overwrite s old source = .ok new after)
    (hreach : defs.Reaches s path records (.record labels selection fields)) {i : Nat}
    {field : Schema ι Empty} (hfield : fields[i]? = some field) (hi : i ∉ selection.order) :
    ∃ was, old.at? (path ++ [i]) = some was ∧ new.at? (path ++ [i]) =
      some (if ∃ record ∈ records, record.FullyCoded then selection.default i else was) := by
  rw [overwrite_eq hwell htype] at hrun
  obtain ⟨v, hread, rfl⟩ := Step.map_eq_ok_iff.1 hrun
  have hgives := Reader.GivesUnder.of_ok hread
  have hv := (hasType_of_read hwell hgives).1
  obtain ⟨before, hbefore, hwithinOld⟩ := hreach.exists_within htype
  obtain ⟨fresh, hfresh, hwithin⟩ := hreach.exists_within hv
  obtain ⟨_, _, _, hrecord⟩ := givesUnder_of_within hwell hwithin hgives
  obtain ⟨was, hwas, hmerged⟩ :=
    at?_uncoded_of_merge (htype _ _ hwithinOld) (hv _ _ hwithin) hfield hi
  refine ⟨was, by rw [Value.at?_append, hbefore, Option.bind_some, hwas], ?_⟩
  rw [Value.at?_append, hreach.at?_merge htype hv hbefore hfresh, Option.bind_some]
  split
  · exact at?_uncoded_of_read hrecord hfield hi
  · exact hmerged

open Catalogue in
/-- The first field of a record that is not coded, within a record that leaves a text out. -/
theorem overwrite_uncoded_kept :
    ∃ new after, none.overwrite (pair partialRecord u8)
        (.list [.list [.int 91, .int 92, .int 93, .int 94, .int 95], .text "note", .int 96])
        (.decoder .classic (.slice [1, 2, 3, 4])) = .ok new after ∧
      new.at? [0, 0] = some (.int 91) := by
  have htype : none.HasType (pair partialRecord u8 : Schema Empty Empty)
      (.list [.list [.int 91, .int 92, .int 93, .int 94, .int 95], .text "note", .int 96]) :=
    hasType_pair _ (hasType_partialRecord _ _ rfl rfl rfl) (hasType_int rfl)
  have hreach : none.Reaches (pair partialRecord u8 : Schema Empty Empty) [0]
      [pair partialRecord u8] partialRecord := .field (by simp) rfl (.refl _)
  have hrun : none.overwrite (pair partialRecord u8 : Schema Empty Empty)
      (.list [.list [.int 91, .int 92, .int 93, .int 94, .int 95], .text "note", .int 96])
      (.decoder .classic (.slice [1, 2, 3, 4])) =
        .ok (.list [.list [.int 91, .int 1, .int 2, .int 3, .int 95], .text "note", .int 4])
          (.decoder .classic (.slice [])) := rfl
  have hpartly : ¬ ∃ record ∈ [(pair partialRecord u8 : Schema Empty Empty)],
      record.FullyCoded := by decide
  obtain ⟨was, hwas, hkept⟩ :=
    overwrite_uncoded (i := 0) (wellFormed_pair wellFormed_partialRecord wellFormed_u8) htype hrun
      hreach rfl (by simp)
  obtain rfl := Option.some.inj hwas
  rw [if_neg hpartly] at hkept
  exact ⟨_, _, hrun, hkept⟩

open Catalogue in
/-- All fields of the outer record are coded, so that it is replaced as a whole. -/
theorem not_overwrite_keeps_uncoded :
    ¬ ∀ (s : Schema Empty Empty) path records labels selection fields old new source after,
      none.WellFormed s → none.HasType s old → none.overwrite s old source = .ok new after →
      none.Reaches s path records (.record labels selection fields) →
      ∀ i field, fields[i]? = some field → i ∉ selection.order →
        new.at? (path ++ [i]) = old.at? (path ++ [i]) := by
  intro hkeeps
  have hwell : none.WellFormed (holder : Schema Empty Empty) :=
    forall_occurs_of_parts nofun ⟨List.nodup_range, fun _ => List.mem_range.1⟩
      (List.forall_mem_cons.2 ⟨wellFormed_partialRecord, List.forall_mem_singleton.2 wellFormed_u8⟩)
  have htype : none.HasType (holder : Schema Empty Empty)
      (.list [.list [.int 255, .int 255, .int 255, .int 255, .int 255], .int 9]) := by
    refine forall_within_of_parts rfl fun t w hpart => ?_
    cases hpart with
    | @field _ _ _ _ _ _ i hi hfield hw =>
      match i, hfield, hw with
      | 0, rfl, rfl => exact hasType_partialRecord _ _ rfl rfl rfl
      | 1, rfl, rfl => exact hasType_int rfl
  have hreach : none.Reaches (holder : Schema Empty Empty) [0] [holder] partialRecord :=
    .field (by simp) rfl (.refl _)
  have hrun : none.overwrite (holder : Schema Empty Empty)
      (.list [.list [.int 255, .int 255, .int 255, .int 255, .int 255], .int 9])
      (.decoder .classic (.slice [1, 2, 3, 4])) =
        .ok (.list [.list [.int 0, .int 1, .int 2, .int 3, .int 0], .int 4])
          (.decoder .classic (.slice [])) := rfl
  have hkept := hkeeps _ _ _ _ _ _ _ _ _ _ hwell htype hrun hreach 0 _ rfl (by simp)
  cases hkept

end Definitions

end Scale
