import Scale.Catalogue
import Scale.Proofs.Overwriting.Steps
import Scale.Proofs.Reading.Typing
import Scale.Proofs.Writing.Equations

namespace Scale.Definitions

open Reader

variable {ι : Type} {defs : Definitions ι Empty}

theorem write_mergeItems {item : Schema ι Empty} {olds vs : List Value}
    (hitems : ∀ old ∈ olds, ∀ v ∈ vs,
      defs.write item (defs.merge item old v) = defs.write item v) :
    (Value.mergeItems (defs.merge item) olds vs).forM (defs.write item) =
      vs.forM (defs.write item) := by
  refine Step.forM_congr_of_getElem? Value.length_mergeItems fun i w v hw hv => ?_
  rw [Value.getElem?_mergeItems, hv] at hw
  cases hold : olds[i]? with
  | none =>
    rw [hold] at hw
    rw [Option.some.inj hw]
  | some old =>
    rw [hold] at hw
    rw [← Option.some.inj hw, hitems old (List.mem_of_getElem? hold) v (List.mem_of_getElem? hv)]

/-- What is written for a merged value is what is written for the value that was read. -/
theorem write_merge {s : Schema ι Empty} {old v : Value} (hold : defs.HasType s old)
    (hv : defs.HasType s v) : defs.write s (defs.merge s old v) = defs.write s v := by
  -- The induction is on the value that was read. The old one is split in the same way.
  induction s, v using defs.valueInduction generalizing old with
  | step s v ih =>
    have hparts : ∀ t w, defs.PartOf s v t w → ∀ old, defs.HasType t old →
        defs.write t (defs.merge t old w) = defs.write t w :=
      fun t w hpart old hold => ih t w hpart hold (forall_within_part hv hpart)
    have hform := hv _ _ (.refl s v)
    have hformOld := hold _ _ (.refl s old)
    cases s with
    | sequence kind item =>
      cases kind with
      | vector =>
        cases v with
        | list vs =>
          cases old with
          | list olds =>
            rw [merge_vector, write_sequence, write_sequence, Writer.putCounted, Writer.putCounted,
              Value.length_mergeItems, Value.items, write_mergeItems fun old hmem w hw => ?_]
            exact hparts item w (.item hw) old (forall_within_part hold (.item hmem))
          | _ => cases hformOld
        | _ => cases hform
      | _ => rw [merge_eq]; rfl
    | array count item =>
      cases v with
      | list vs =>
        cases old with
        | list olds =>
          rw [merge_array, write_array, write_array, Value.items,
            write_mergeItems fun old hmem w hw => ?_]
          exact hparts item w (.element hw) old (forall_within_part hold (.element hmem))
        | _ => cases hformOld
      | _ => cases hform
    | tuple items =>
      cases v with
      | list vs =>
        cases old with
        | list olds =>
          rw [merge_tuple]
          refine write_tuple_congr defs rfl (length_mergeAll defs) ?_
          intro i item item' w v hitem hitem' hw hv
          obtain rfl := Option.some.inj (hitem.symm.trans hitem')
          obtain ⟨old, hmem, rfl⟩ := defs.exists_of_mergeAll hformOld hform hitem hv hw
          exact hparts item v (.component hitem hv) old (forall_within_part hold (.component hitem hmem))
        | _ => cases hformOld
      | _ => cases hform
    | record labels selection fields =>
      cases v with
      | list vs =>
        cases old with
        | list olds =>
          by_cases hcoded : (Schema.record labels selection fields).FullyCoded
          · rw [merge_record_of_fullyCoded defs hcoded]
          · rw [merge_record defs hcoded]
            refine write_record_congr defs rfl (length_mergeAll defs) ?_
            intro i hi field field' w v hfield hfield' hw hv
            obtain rfl := Option.some.inj (hfield.symm.trans hfield')
            obtain ⟨old, hmem, rfl⟩ := defs.exists_of_mergeAll hformOld hform hfield hv hw
            rw [if_pos (decide_eq_true hi)]
            exact hparts field v (.field hi hfield hv) old
              (forall_within_part hold (.field hi hfield hmem))
        | _ => cases hformOld
      | _ => cases hform
    | ref name =>
      rw [merge_ref, write_ref, write_ref]
      exact hparts _ v .body old (forall_within_part hold .body)
    | _ => rw [merge_eq]; rfl

/-- Reading over a value succeeds and fails as reading afresh does, leaves the same bytes, and gives
    what is read merged with the old value. So what is written for the result is what is written for
    the value that was read, whatever stood there before. -/
theorem overwrite_agrees {s : Schema ι Empty} {old : Value} (hwell : defs.WellFormed s)
    (htype : defs.HasType s old) (source : Source) :
    match defs.read s source with
    | .ok v after => defs.overwrite s old source = .ok (defs.merge s old v) after ∧
      ∀ scheme, defs.encodeFull scheme s (defs.merge s old v) = defs.encodeFull scheme s v
    | .error e after => defs.overwrite s old source = .error e after := by
  rw [overwrite_eq hwell htype]
  cases hread : defs.read s source with
  | ok v after =>
    have hv := (hasType_of_read hwell (GivesUnder.of_ok hread)).1
    refine ⟨Step.bind_of_ok hread, fun scheme => ?_⟩
    rw [encodeFull, write_merge htype hv]
    rfl
  | error e after => exact Step.bind_of_error hread

section

open Catalogue

theorem wellFormed_u8 : none.WellFormed (u8 : Schema Empty Empty) :=
  forall_occurs_of_parts nofun trivial nofun

theorem wellFormed_partialRecord : none.WellFormed (partialRecord : Schema Empty Empty) :=
  forall_occurs_of_parts nofun (by simp [Schema.Admissible, partialRecord])
    (List.forall_mem_cons.2 ⟨wellFormed_u8, List.forall_mem_cons.2
      ⟨wellFormed_u8, List.forall_mem_singleton.2 wellFormed_u8⟩⟩)

theorem hasType_partialRecord {b c d : Int} (a e : Value) (hb : FixedInt.contains .u8 b = true)
    (hc : FixedInt.contains .u8 c = true) (hd : FixedInt.contains .u8 d = true) :
    none.HasType (partialRecord : Schema Empty Empty) (.list [a, .int b, .int c, .int d, e]) := by
  refine forall_within_of_parts rfl fun t w hpart => ?_
  cases hpart with
  | @field _ _ _ _ _ _ i hi hfield hw =>
    match i, hfield, hw with
    | 1, rfl, rfl => exact hasType_int hb
    | 2, rfl, rfl => exact hasType_int hc
    | 3, rfl, rfl => exact hasType_int hd
    | 0, _, _ | _ + 4, _, _ => simp at hi

theorem wellFormed_pair {s t : Schema Empty Empty} (hs : none.WellFormed s)
    (ht : none.WellFormed t) : none.WellFormed (pair s t) :=
  forall_occurs_of_parts nofun (by simp [Schema.Admissible, pair])
    (List.forall_mem_cons.2 ⟨hs, List.forall_mem_singleton.2 ht⟩)

theorem hasType_pair {s t : Schema Empty Empty} {v w : Value} (note : Value)
    (hv : none.HasType s v) (hw : none.HasType t w) :
    none.HasType (pair s t) (.list [v, note, w]) := by
  refine forall_within_of_parts rfl fun _ _ hpart => ?_
  cases hpart with
  | @field _ _ _ _ _ _ i hi hfield hvalue =>
    match i, hfield, hvalue with
    | 0, rfl, rfl => exact hv
    | 2, rfl, rfl => exact hw
    | 1, _, _ | _ + 3, _, _ => simp at hi

/-- A list with one item is read over with two. The first item keeps its uncoded fields, the second
    one has the defaults, and the text between the list and the last byte stays. -/
theorem overwrite_agrees_longer :
    none.overwrite (pair (vector partialRecord) u8)
        (.list [.list [.list [.int 91, .int 92, .int 93, .int 94, .int 95]], .text "note", .int 96])
        (.decoder .classic (.slice [8, 1, 2, 3, 4, 5, 6, 7, 99])) =
      .ok (.list [.list [.list [.int 91, .int 1, .int 2, .int 3, .int 95],
          .list [.int 0, .int 4, .int 5, .int 6, .int 0]], .text "note", .int 7])
        (.decoder .classic (.slice [99])) := by
  have hvector : none.WellFormed (vector partialRecord : Schema Empty Empty) :=
    forall_occurs_of_parts nofun trivial (List.forall_mem_singleton.2 wellFormed_partialRecord)
  have hitems : none.HasType (vector partialRecord : Schema Empty Empty)
      (.list [.list [.int 91, .int 92, .int 93, .int 94, .int 95]]) :=
    forall_within_sequence (Nat.le_of_ble_eq_true rfl)
      (List.forall_mem_singleton.2 (hasType_partialRecord _ _ rfl rfl rfl))
  have htype : none.HasType (pair (vector partialRecord) u8 : Schema Empty Empty) (.list
      [.list [.list [.int 91, .int 92, .int 93, .int 94, .int 95]], .text "note", .int 96]) :=
    hasType_pair _ hitems (hasType_int rfl)
  have hagrees := overwrite_agrees (wellFormed_pair hvector wellFormed_u8) htype
    (.decoder .classic (.slice [8, 1, 2, 3, 4, 5, 6, 7, 99]))
  exact hagrees.1

end

end Scale.Definitions
