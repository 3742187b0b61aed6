import Scale.Proofs.Derive.Fields
import Scale.Proofs.Step
import Scale.Proofs.Value.Place

namespace Scale.Derive

variable {fields : Fields FieldType} {all coded : List (DeclaredField FieldType)}
  {listed : Option (List Member)}

namespace Fields

/-- The values of all fields, as declared, when `vs` are read for the coded ones: each of these holds
    the value that is read for it, and every other field its default. -/
structure Assembles (fields : Fields FieldType) (coded : List (DeclaredField FieldType))
    (vs values : List Value) : Prop where
  length_eq : values.length = fields.toList.length
  read : ∀ f v, (f, v) ∈ coded.zip vs → values[f.position]? = some v
  default : ∀ (position : Nat) field, fields.toList[position]? = some field →
    position ∉ positions coded → values[position]? = some field.type.default

/-- The fields are written and read as the concatenation of the coded ones: what is added to a sink,
    what is taken off a source and every failure on the way are those of the coded fields, one after
    the other. -/
structure CodedBy (fields : Fields FieldType) (coded : List (DeclaredField FieldType))
    (write : List Value → Writer Unit) (read : Reader Value) : Prop where
  write_eq : ∀ values : List Value, values.length = fields.toList.length →
    write values = coded.forM fun f => f.coding.write (values.getD f.position .unit)
  read_eq : ∃ assemble : List Value → List Value,
    (∀ vs, vs.length = coded.length → fields.Assembles coded vs (assemble vs)) ∧
    read = do
      let vs ← coded.mapM fun f => f.coding.read
      return .list (assemble vs)

end Fields

/-- The fields that take their default are those that are not coded. -/
theorem mem_defaults_iff (hdistinct : fields.Distinct) (hall : declaredFields fields = .ok all)
    (hcodes : fields.Codes listed coded) (builds : String) {f : DeclaredField FieldType} :
    f ∈ (decodeProduct builds all coded).defaults ↔ f ∈ all ∧ f ∉ coded := by
  refine List.mem_filter.trans (and_congr_right fun hf => ?_)
  rw [Bool.not_eq_true', ← Bool.not_eq_true, List.any_eq_true]
  refine not_congr ⟨?_, fun hmem => ⟨f, hmem, beq_self_eq_true f.member⟩⟩
  rintro ⟨g, hg, hmember⟩
  have hdeclares := (mem_declaredFields_iff hall).1 hf
  rwa [← (hcodes.declares g hg).eq_of_member hdistinct hdeclares (beq_iff_eq.1 hmember)]

theorem nodup_of_nodup_positions (hnodup : (positions coded).Nodup) : coded.Nodup :=
  (List.pairwise_map.1 hnodup).imp fun hne heq => hne (congrArg DeclaredField.position heq)

theorem nodup_positions_all (hall : declaredFields fields = .ok all) : (positions all).Nodup := by
  rw [positions_of_declaredFields hall]
  exact List.nodup_range

/-- Every field is either coded or takes its default. -/
theorem perm_coded_defaults (hdistinct : fields.Distinct) (hall : declaredFields fields = .ok all)
    (hcodes : fields.Codes listed coded) (builds : String) :
    (coded ++ (decodeProduct builds all coded).defaults).Perm all := by
  have hmem := @mem_defaults_iff _ _ _ _ hdistinct hall hcodes builds
  have hnodup : all.Nodup := nodup_of_nodup_positions (nodup_positions_all hall)
  have hparts : (coded ++ (decodeProduct builds all coded).defaults).Nodup := by
    refine List.nodup_append.2 ⟨nodup_of_nodup_positions hcodes.nodup_positions,
      hnodup.sublist List.filter_sublist, ?_⟩
    rintro f hf _ hdefault rfl
    exact (hmem.1 hdefault).2 hf
  refine (List.perm_ext_iff_of_nodup hparts hnodup).2 fun f => ?_
  rw [List.mem_append, hmem]
  constructor
  · rintro (hf | ⟨hf, _⟩)
    · exact (mem_declaredFields_iff hall).2 (hcodes.declares f hf)
    · exact hf
  · intro hf
    by_cases hcoded : f ∈ coded
    · exact .inl hcoded
    · exact .inr ⟨hf, hcoded⟩

theorem length_blank (hdistinct : fields.Distinct) (hall : declaredFields fields = .ok all)
    (hcodes : fields.Codes listed coded) (builds : String) :
    (decodeProduct builds all coded).blank.length = fields.toList.length := by
  have hperm := (perm_coded_defaults hdistinct hall hcodes builds).length_eq
  have hlength := congrArg List.length (positions_of_declaredFields hall)
  rw [positions, List.length_map, List.length_range] at hlength
  rw [List.length_append] at hperm
  rw [DecodeProduct.blank, Value.length_place, List.length_replicate, ← hlength, ← hperm]
  rfl

/-- What is built from the values read for the coded fields. -/
theorem assembles_place (hdistinct : fields.Distinct) (hall : declaredFields fields = .ok all)
    (hcodes : fields.Codes listed coded) (builds : String) (vs : List Value) :
    fields.Assembles coded vs
      (Value.place (positions coded) vs (decodeProduct builds all coded).blank) := by
  have hblank := length_blank hdistinct hall hcodes builds
  have hmem := @mem_defaults_iff _ _ _ _ hdistinct hall hcodes builds
  refine ⟨by rw [Value.length_place, hblank], fun f v hzip => ?_, fun position field hfield hout => ?_⟩
  · refine Value.getElem?_place_of_mem_zip hcodes.nodup_positions (fun i hi => ?_) ?_
    · obtain ⟨g, hg, rfl⟩ := List.mem_map.1 hi
      rw [hblank]
      exact (hcodes.declares g hg).lt_length
    · rw [positions, List.zip_map_left]
      exact List.mem_map_of_mem hzip
  · -- The field at the position is declared, and so it is one of those that take their default.
    have hlt := (List.getElem?_eq_some_iff.1 hfield).1
    have hposition : position ∈ positions all := by
      rw [positions_of_declaredFields hall]
      exact List.mem_range.2 hlt
    obtain ⟨f, hf, rfl⟩ := List.mem_map.1 hposition
    have hdefault : f ∈ (decodeProduct builds all coded).defaults :=
      hmem.2 ⟨hf, fun hcoded => hout (List.mem_map_of_mem hcoded)⟩
    obtain ⟨other, hother, _, htype, _⟩ := (mem_declaredFields_iff hall).1 hf
    obtain rfl := Option.some.inj (hfield.symm.trans hother)
    rw [Value.getElem?_place_of_not_mem hout, ← htype, DecodeProduct.blank]
    refine Value.getElem?_place_of_mem_zip ?_ (fun i hi => ?_) ?_
    · exact (nodup_positions_all hall).sublist (List.filter_sublist.map _)
    · obtain ⟨g, hg, rfl⟩ := List.mem_map.1 hi
      have hrange := ((mem_declaredFields_iff hall).1 (hmem.1 hg).1).lt_length
      rw [DecodeProduct.blank, Value.length_place] at hblank
      rwa [hblank]
    · rw [positions, List.zip_map']
      exact List.mem_map_of_mem hdefault

/-- Writing a field out of the values of all fields is writing the value at its position. -/
theorem forM_write (hcodes : fields.Codes listed coded) {values : List Value}
    (hlength : values.length = fields.toList.length) :
    (coded.forM fun f => f.write values) =
      coded.forM fun f => f.coding.write (values.getD f.position .unit) := by
  refine Step.forM_congr fun f hf => ?_
  have hlt : f.position < values.length := by
    rw [hlength]
    exact (hcodes.declares f hf).lt_length
  rw [DeclaredField.write, List.getD_eq_getElem?_getD, List.getElem?_eq_getElem hlt]
  rfl

/-- What the two derives make of the fields of a product. -/
theorem codedBy_of_codedFields (hdistinct : fields.Distinct)
    (hall : declaredFields fields = .ok all) (hcoded : codedFields all listed = .ok coded)
    (builds : String) :
    fields.CodedBy coded (fun values => coded.forM fun f => f.write values)
      (decodeProduct builds all coded).read := by
  have hcodes := codes_of_codedFields hall hcoded
  exact ⟨fun values hlength => forM_write hcodes hlength,
    _, fun vs _ => assembles_place hdistinct hall hcodes builds vs, rfl⟩

end Scale.Derive
