import Scale.Proofs.Derive.Enumerations
import Scale.Proofs.Derive.Plans
import Scale.Proofs.Overwriting.Steps
import Scale.Proofs.Reading.Equations
import Scale.Proofs.Writing.Equations

namespace Scale.Derive

open Definitions

variable {ι : Type} {defs : Definitions ι Empty} {fields : Fields FieldType}
  {all coded : List (DeclaredField FieldType)} {listed : Option (List Member)}
  {schemas products : List (Schema ι Empty)} {alternatives : List (Alternative FieldType)}

/-- The schema of a field: that of its type, or that of its compact form, if it is declared so. The
    default value of the type may be any value. -/
inductive DeclaredField.HasSchema (defs : Definitions ι Empty) (f : DeclaredField FieldType) :
    Schema ι Empty → Prop where
  | plain {plain compact default} : f.options.compact = false →
    f.type = codecField defs plain compact default → HasSchema defs f plain
  | compact {plain integer default} : f.options.compact = true →
    f.type = codecField defs plain (.compact integer) default → HasSchema defs f (.compact integer)

namespace Fields

/-- The schemas are those of the fields, one by one. -/
structure HaveSchemas (defs : Definitions ι Empty) (fields : Fields FieldType)
    (schemas : List (Schema ι Empty)) : Prop where
  length_eq : schemas.length = fields.toList.length
  field : ∀ f, fields.Declares f → ∃ s, schemas[f.position]? = some s ∧ f.HasSchema defs s

/-- The coded fields are selected in their order, and the others take the defaults of their types. -/
def selection (fields : Fields FieldType) (coded : List (DeclaredField FieldType)) : Selection where
  order := positions coded
  default i := (fields.toList[i]?.map fun field => field.type.default).getD .unit

/-- The schema of a product of which the listed fields are coded: the record of the schemas of its
    fields. -/
inductive HasSchema (defs : Definitions ι Empty) (fields : Fields FieldType)
    (listed : Option (List Member)) : Schema ι Empty → Prop where
  | record (labels : Labels) {coded : List (DeclaredField FieldType)}
      {schemas : List (Schema ι Empty)} : fields.Codes listed coded →
    fields.HaveSchemas defs schemas →
    HasSchema defs fields listed (.record labels (fields.selection coded) schemas)

end Fields

/-- The schema of a declaration: a record of the fields that it lists, a sum of records that list none,
    or an enumeration by integers. -/
inductive Item.HasSchema (defs : Definitions ι Empty) (item : Item FieldType) :
    Schema ι Empty → Prop where
  | record {fields options s} : item.body = .record fields →
    typeOptions item.attributes = .ok options → fields.HasSchema defs options.fields s →
    HasSchema defs item s
  | sum {alternatives options products} : item.body = .sum alternatives →
    typeOptions item.attributes = .ok options → options.repr = Option.none →
    products.length = alternatives.length →
    (∀ (i : Nat) alternative product, alternatives[i]? = some alternative →
      products[i]? = some product → alternative.fields.HasSchema defs Option.none product) →
    HasSchema defs item (.sum (alternatives.map Alternative.name) products)
  | integers {alternatives options repr} : item.body = .sum alternatives →
    typeOptions item.attributes = .ok options → options.repr = some repr →
    HasSchema defs item (.enumeration (enumeration repr alternatives))

/-- All fields of the declaration are of types of the codec. -/
def Item.OfCodec (defs : Definitions ι Empty) (item : Item FieldType) : Prop :=
  match item.body with
  | .record fields => ∃ schemas, fields.HaveSchemas defs schemas
  | .sum alternatives =>
    ∀ alternative ∈ alternatives, ∃ schemas, alternative.fields.HaveSchemas defs schemas
  | .union _ => True

namespace DeclaredField.HasSchema

variable {f : DeclaredField FieldType} {s : Schema ι Empty}

theorem coding_eq (hschema : f.HasSchema defs s) : f.coding = ⟨defs.write s, defs.read s⟩ := by
  cases hschema with
  | plain hplain htype => rw [coding, hplain, htype]; rfl
  | compact hcompact htype => rw [coding, hcompact, htype]; rfl

/-- A field is read over as its schema says, the compact form being read afresh. -/
theorem overwrite_eq (hschema : f.HasSchema defs s) {values : List Value} {old : Value}
    (hold : values[f.position]? = some old) : f.overwrite values = defs.overwrite s old := by
  cases hschema with
  | plain hplain htype =>
    rw [DeclaredField.overwrite, hplain, hold, htype]
    rfl
  | compact hcompact htype =>
    rw [DeclaredField.overwrite, hcompact, if_pos rfl, DeclaredField.read,
      coding_eq (.compact hcompact htype)]
    rfl

end DeclaredField.HasSchema

@[simp] theorem order_selection : (fields.selection coded).order = positions coded :=
  rfl

theorem default_selection {position : Nat} {field : Field FieldType}
    (hfield : fields.toList[position]? = some field) :
    (fields.selection coded).default position = field.type.default := by
  simp only [Fields.selection, hfield, Option.map_some, Option.getD_some]

/-- The schemas make a record with the coded fields in their order. -/
theorem admissible_selection (hschemas : fields.HaveSchemas defs schemas)
    (hcodes : fields.Codes listed coded) (labels : Labels) :
    (Schema.record labels (fields.selection coded) schemas).Admissible := by
  refine ⟨hcodes.nodup_positions, fun i hi => ?_⟩
  obtain ⟨f, hf, rfl⟩ := List.mem_map.1 hi
  rw [hschemas.length_eq]
  exact (hcodes.declares f hf).lt_length

/-- What is built around the values of the coded fields are the defaults of the selection. -/
theorem place_blank_eq (hdistinct : fields.Distinct) (hall : declaredFields fields = .ok all)
    (hcodes : fields.Codes listed coded) (builds : String) {vs : List Value}
    (hvs : vs.length = coded.length) :
    Value.place (positions coded) vs (decodeProduct builds all coded).blank =
      Value.place (positions coded) vs ((fields.selection coded).blank fields.toList.length) := by
  obtain ⟨hlength, hread, hdefault⟩ := assembles_place hdistinct hall hcodes builds vs
  have hrange : ∀ i ∈ positions coded, i < fields.toList.length := by
    intro i hi
    obtain ⟨f, hf, rfl⟩ := List.mem_map.1 hi
    exact (hcodes.declares f hf).lt_length
  refine List.ext_getElem? fun i => ?_
  by_cases hi : i ∈ positions coded
  · obtain ⟨f, hf, rfl⟩ := List.mem_map.1 hi
    obtain ⟨v, hmem⟩ := exists_mem_zip hvs hf
    have hplaced : (f.position, v) ∈ (positions coded).zip vs := by
      rw [positions, List.zip_map_left]
      exact List.mem_map_of_mem hmem
    exact (hread f v hmem).trans
      ((fields.selection coded).getElem?_place_blank _ hcodes.nodup_positions hrange hplaced).symm
  · have hkept : (Value.place (positions coded) vs
        ((fields.selection coded).blank fields.toList.length))[i]? =
          ((fields.selection coded).blank fields.toList.length)[i]? :=
      Value.getElem?_place_of_not_mem hi
    rw [hkept]
    by_cases hlt : i < fields.toList.length
    · have hfield := List.getElem?_eq_getElem hlt
      rw [hdefault i _ hfield hi, Selection.getElem?_blank _ _ hlt, default_selection hfield]
    · have hout := Nat.not_lt.1 hlt
      rw [List.getElem?_eq_none (hlength.symm ▸ hout), List.getElem?_eq_none]
      rwa [Selection.length_blank]

/-- A product is read as the record of the schemas. -/
theorem read_decodeProduct (hdistinct : fields.Distinct) (hall : declaredFields fields = .ok all)
    (hcodes : fields.Codes listed coded) (hschemas : fields.HaveSchemas defs schemas)
    (builds : String) (labels : Labels) :
    (decodeProduct builds all coded).read =
      defs.read (.record labels (fields.selection coded) schemas) := by
  have hsteps : (fields.selection coded).order.mapM (defs.readAt schemas) =
      coded.mapM DeclaredField.read := by
    rw [order_selection, positions, List.mapM_map]
    refine Step.mapM_congr fun f hf => ?_
    obtain ⟨s, hs, hschema⟩ := hschemas.field f (hcodes.declares f hf)
    rw [Function.comp_apply, readAt, hs, DeclaredField.read, hschema.coding_eq]
  rw [read_record, hsteps]
  refine Step.bind_congr_of_ok fun hvs => ?_
  rw [order_selection, hschemas.length_eq,
    ← place_blank_eq hdistinct hall hcodes builds (Step.length_of_mapM hvs)]
  rfl

/-- A field is read over as the schema at its position, and so its old value is merged. -/
theorem overwrite_declared (hschemas : fields.HaveSchemas defs schemas)
    (hcodes : fields.Codes listed coded) {labels : Labels} {olds : List Value}
    (hwell : defs.WellFormed (.record labels (fields.selection coded) schemas))
    (htype : defs.HasType (.record labels (fields.selection coded) schemas) (.list olds))
    {f : DeclaredField FieldType} (hf : f ∈ coded) : f.overwrite olds = do
      let v ← defs.readAt schemas f.position
      return defs.mergeAt schemas olds f.position v := by
  obtain ⟨s, hs, hschema⟩ := hschemas.field f (hcodes.declares f hf)
  have hlt : f.position < olds.length := by
    rw [show olds.length = schemas.length from htype _ _ (.refl _ _)]
    exact (List.getElem?_eq_some_iff.1 hs).1
  have hold : olds[f.position]? = some olds[f.position] := List.getElem?_eq_getElem hlt
  have hcoded : f.position ∈ positions coded := List.mem_map_of_mem hf
  have hpart : s ∈ (Schema.record labels (fields.selection coded) schemas).parts :=
    Schema.mem_parts_record hcoded hs
  rw [hschema.overwrite_eq hold, Definitions.overwrite_eq (forall_occurs_part hwell hpart)
    (forall_within_part htype (.field hcoded hs hold)), readAt, hs]
  simp only [mergeAt, hs, hold]

/-- A record is read over as the record of the schemas, with its uncoded fields left alone if there
    are any. -/
theorem overwrite_recordPlan (hdistinct : fields.Distinct) (hall : declaredFields fields = .ok all)
    (hcodes : fields.Codes listed coded) (hschemas : fields.HaveSchemas defs schemas)
    (builds : String) {labels : Labels} {old : Value}
    (hwell : defs.WellFormed (.record labels (fields.selection coded) schemas))
    (htype : defs.HasType (.record labels (fields.selection coded) schemas) old) :
    (DecodePlan.record (decodeProduct builds all coded)
        (if coded.length = all.length then none else some coded)).overwrite old =
      defs.overwrite (.record labels (fields.selection coded) schemas) old := by
  have hadmissible := admissible_selection hschemas hcodes labels
  have hlength : coded.length = all.length ↔
      (Schema.record labels (fields.selection coded) schemas).FullyCoded := by
    have hpositions := congrArg List.length (positions_of_declaredFields hall)
    rw [positions, List.length_map, List.length_range, ← hschemas.length_eq] at hpositions
    rw [hpositions, ← Schema.length_order_eq_iff hadmissible, order_selection, positions,
      List.length_map]
  rw [Definitions.overwrite_eq hwell htype, read_record]
  cases old with
  | list olds =>
    by_cases hcoded : coded.length = all.length
    · rw [if_pos hcoded]
      change (decodeProduct builds all coded).read = _
      rw [read_decodeProduct hdistinct hall hcodes hschemas builds labels, read_record]
      simp only [bind_assoc, pure_bind, merge_record_of_fullyCoded defs (hlength.1 hcoded)]
    · rw [if_neg hcoded, DecodePlan.overwrite]
      have hsteps : coded.mapM (fun f => f.overwrite olds) = (positions coded).mapM fun i => do
          let v ← defs.readAt schemas i
          return defs.mergeAt schemas olds i v := by
        rw [positions, List.mapM_map]
        exact Step.mapM_congr fun f hf => overwrite_declared hschemas hcodes hwell htype hf
      simp only [Value.items, hsteps, Reader.mapM_eq_zipWith fun _ _ => rfl, bind_assoc, pure_bind]
      refine Step.bind_congr_of_ok fun hvs => ?_
      have hmerged : defs.merge (.record labels (fields.selection coded) schemas) (.list olds) _ = _ :=
        merge_place hadmissible (mt hlength.2 hcoded) (htype _ _ (.refl _ _))
          (Step.length_of_mapM hvs)
      rw [order_selection] at hmerged ⊢
      rw [hmerged]
  | _ => cases htype _ _ (.refl _ _)

/-- A product is written as the record of the schemas. -/
theorem forM_write_eq (hcodes : fields.Codes listed coded) (hschemas : fields.HaveSchemas defs schemas)
    (labels : Labels) {values : List Value} (hvalues : values.length = schemas.length) :
    (coded.forM fun f => f.write values) =
      defs.write (.record labels (fields.selection coded) schemas) (.list values) := by
  rw [write_record, order_selection, positions, List.forM_eq_forM, List.forM_eq_forM, List.forM_map]
  refine Step.forM_congr fun f hf => ?_
  obtain ⟨s, hs, hschema⟩ := hschemas.field f (hcodes.declares f hf)
  have hlt : f.position < values.length := by
    rw [hvalues]
    exact (List.getElem?_eq_some_iff.1 hs).1
  rw [DeclaredField.write, List.getElem?_eq_getElem hlt, hs, hschema.coding_eq]

/-- The plans write, read and read over the values of a schema as the schema has it. -/
structure CodedAs (defs : Definitions ι Empty) (encoder : EncodePlan FieldType)
    (decoder : DecodePlan FieldType) (s : Schema ι Empty) : Prop where
  write_eq : ∀ v, defs.HasType s v → encoder.write v = defs.write s v
  read_eq : decoder.read = defs.read s
  overwrite_eq : defs.WellFormed s → ∀ old, defs.HasType s old →
    decoder.overwrite old = defs.overwrite s old

/-- The arms of an alternative write and read its schema. -/
structure ArmsCode (defs : Definitions ι Empty) (steps : List (EncodeArm FieldType))
    (arms : List (Nat × DecodeProduct FieldType)) (i : Nat) (alternative : Alternative FieldType)
    (product : Schema ι Empty) : Prop where
  hasSchema : alternative.fields.HasSchema defs Option.none product
  write : ∃ step, steps[i]? = some step ∧ step.tag = i ∧ ∀ w, product.Admits w →
    ∃ values, w = .list values ∧
      (step.steps.forM fun f => f.write values) = defs.write product (.list values)
  read : ∃ arm, arms[i]? = some arm ∧ arm.2.read = defs.read product

theorem exists_armsCode {steps : List (EncodeArm FieldType)}
    {arms : List (Nat × DecodeProduct FieldType)} (hsteps : encodeArms 0 alternatives = .ok steps)
    (harms : decodeArms 0 alternatives = .ok arms) {i : Nat} {alternative : Alternative FieldType}
    (hget : alternatives[i]? = some alternative) (hdistinct : alternative.fields.Distinct)
    (hschemas : alternative.fields.HaveSchemas defs schemas) :
    ∃ product, ArmsCode defs steps arms i alternative product := by
  obtain ⟨all, coded, hall, hcoded, hstep⟩ := getElem?_encodeArms hsteps hget
  obtain ⟨all', coded', hall', hcoded', harm⟩ := getElem?_decodeArms harms hget
  obtain rfl := Except.ok.inj (hall.symm.trans hall')
  obtain rfl := Except.ok.inj (hcoded.symm.trans hcoded')
  have hcodes := codes_of_codedFields hall hcoded
  refine ⟨.record .none (alternative.fields.selection coded) schemas, .record _ hcodes hschemas,
    ⟨_, hstep, Nat.zero_add i, fun w hw => ?_⟩, _, harm, ?_⟩
  · cases w with
    | list values => exact ⟨values, rfl, forM_write_eq hcodes hschemas .none hw⟩
    | _ => cases hw
  · exact read_decodeProduct hdistinct hall hcodes hschemas alternative.name .none

/-- Things that exist for each item of a list make a list. -/
theorem exists_list_of_forall {α β : Type} {P : Nat → α → β → Prop} {as : List α}
    (hexists : ∀ (i : Nat) a, as[i]? = some a → ∃ b, P i a b) : ∃ bs : List β,
      bs.length = as.length ∧
        ∀ (i : Nat) a b, as[i]? = some a → bs[i]? = some b → P i a b := by
  induction as generalizing P with
  | nil => exact ⟨[], rfl, nofun⟩
  | cons a as ih =>
    obtain ⟨b, hb⟩ := hexists 0 a rfl
    obtain ⟨bs, hlength, hbs⟩ := ih fun i => hexists (i + 1)
    refine ⟨b :: bs, congrArg (· + 1) hlength, fun i a' b' ha' hb' => ?_⟩
    cases i with
    | zero =>
      obtain rfl := Option.some.inj ha'
      obtain rfl := Option.some.inj hb'
      exact hb
    | succ i => exact hbs i a' b' ha' hb'

/-- A sum is coded as the sum of the records of its alternatives. -/
theorem codedAs_sum {steps : List (EncodeArm FieldType)}
    {arms : List (Nat × DecodeProduct FieldType)} (names : List String)
    (hlength : products.length = alternatives.length)
    (harms : ∀ (i : Nat) alternative product, alternatives[i]? = some alternative →
      products[i]? = some product → ArmsCode defs steps arms i alternative product) :
    CodedAs defs (.sum steps) (.sum alternatives.length arms) (.sum names products) := by
  have hproduct : ∀ {i : Nat}, i < products.length →
      ∃ alternative product, products[i]? = some product ∧
        ArmsCode defs steps arms i alternative product := fun hlt =>
    have hget := List.getElem?_eq_getElem hlt
    ⟨_, _, hget, harms _ _ _ (List.getElem?_eq_getElem (hlength ▸ hlt)) hget⟩
  have hread : (DecodePlan.sum alternatives.length arms).read = defs.read (.sum names products) := by
    rw [DecodePlan.read, Definitions.read_sum, hlength]
    refine Step.bind_congr_of_ok fun htake => ?_
    obtain ⟨_, product, hget, hcode⟩ := hproduct (hlength ▸ Reader.lt_of_takeTag htake)
    obtain ⟨arm, harm, heq⟩ := hcode.read
    rw [harm, readAt, hget]
    simp only [heq]
  refine ⟨fun v htype => ?_, hread, fun _ _ _ => hread⟩
  have hform := htype _ _ (.refl _ _)
  cases v with
  | tagged i w =>
    obtain ⟨_, product, hget, hcode⟩ := hproduct hform
    obtain ⟨step, hstep, htag, hwrite⟩ := hcode.write
    obtain ⟨values, rfl, heq⟩ := hwrite w (htype _ _ (.step (.alternative hget) (.refl _ _)))
    rw [defs.write_sum names hget, EncodePlan.write, hstep]
    simp only [htag, heq]
    rfl
  | _ => cases hform

/-- An enumeration by integers is coded as one of the codec. -/
theorem codedAs_integers (e : Enumeration) :
    CodedAs defs (.integers e) (.integers e) (.enumeration e) := by
  have hread : (DecodePlan.integers e).read = defs.read (.enumeration e) := by
    rw [← readWith_read, Schema.readWith]
    rfl
  refine ⟨fun v htype => ?_, hread, fun _ _ _ => hread⟩
  have hform := htype _ _ (.refl _ _)
  cases v with
  | tagged i w => rfl
  | _ => cases hform

section

variable {item : Item FieldType} {encoder : EncodePlan FieldType} {decoder : DecodePlan FieldType}

theorem exists_hasSchema_of_record (hbody : item.body = .record fields) (hdistinct : fields.Distinct)
    (hschemas : fields.HaveSchemas defs schemas) (hencode : encodePlan item = .ok encoder)
    (hdecode : decodePlan item = .ok decoder) :
    ∃ s, item.HasSchema defs s ∧ CodedAs defs encoder decoder s := by
  obtain ⟨options, all, coded, inPlace, hoptions, hall, hcoded, rfl, _⟩ :=
    exists_of_recordPlans hbody hencode hdecode
  obtain ⟨options', all', coded', hoptions', hall', hcoded', rfl⟩ :=
    exists_of_decodePlan hbody hdecode
  obtain rfl := Except.ok.inj (hoptions.symm.trans hoptions')
  obtain rfl := Except.ok.inj (hall.symm.trans hall')
  obtain rfl := Except.ok.inj (hcoded.symm.trans hcoded')
  have hcodes := codes_of_codedFields hall hcoded
  refine ⟨_, .record hbody hoptions (.record .none hcodes hschemas), fun v htype => ?_,
    read_decodeProduct hdistinct hall hcodes hschemas item.name .none, fun hwell old htype =>
    overwrite_recordPlan hdistinct hall hcodes hschemas item.name hwell htype⟩
  have hform := htype _ _ (.refl _ _)
  cases v with
  | list values => exact forM_write_eq hcodes hschemas .none hform
  | _ => cases hform

theorem exists_hasSchema_of_sum (hbody : item.body = .sum alternatives)
    (hdistinct : ∀ alternative ∈ alternatives, alternative.fields.Distinct)
    (hcodec : ∀ alternative ∈ alternatives, ∃ schemas, alternative.fields.HaveSchemas defs schemas)
    (hencode : encodePlan item = .ok encoder) (hdecode : decodePlan item = .ok decoder) :
    ∃ s, item.HasSchema defs s ∧ CodedAs defs encoder decoder s := by
  obtain ⟨options, hoptions⟩ : ∃ options, typeOptions item.attributes = .ok options := by
    simp only [encodePlan, hbody] at hencode
    obtain ⟨_, _, hencode⟩ := bind_eq_ok_iff.1 hencode
    obtain ⟨options, hoptions, _⟩ := bind_eq_ok_iff.1 hencode
    exact ⟨options, hoptions⟩
  cases hrepr : options.repr with
  | some repr =>
    obtain ⟨_, rfl, hplan⟩ := plans_of_integers hbody hoptions hrepr hencode
    obtain rfl := Except.ok.inj (hplan.symm.trans hdecode)
    exact ⟨_, .integers hbody hoptions hrepr, codedAs_integers _⟩
  | none =>
    obtain ⟨steps, arms, _, hsteps, harms, rfl, rfl⟩ :=
      exists_of_sumPlans hbody hoptions hrepr hencode hdecode
    obtain ⟨products, hlength, hproducts⟩ :
        ∃ products : List (Schema ι Empty), products.length = alternatives.length ∧
          ∀ (i : Nat) alternative product, alternatives[i]? = some alternative →
            products[i]? = some product → ArmsCode defs steps arms i alternative product := by
      refine exists_list_of_forall fun i alternative hget => ?_
      have hmem := List.mem_of_getElem? hget
      obtain ⟨schemas, hschemas⟩ := hcodec alternative hmem
      exact exists_armsCode hsteps harms hget (hdistinct alternative hmem) hschemas
    exact ⟨_, .sum hbody hoptions hrepr hlength fun i alternative product hget hproduct =>
      (hproducts i alternative product hget hproduct).hasSchema, codedAs_sum _ hlength hproducts⟩

/-- A derived type whose fields are of types of the codec has a type of the codec for itself: it is
    written, read and read over as its schema. So what holds of all schemas holds of derived types. -/
theorem Item.coded_by_schemas (hdistinct : item.Distinct) (hcodec : item.OfCodec defs)
    (hencode : encodePlan item = .ok encoder) (hdecode : decodePlan item = .ok decoder) :
    ∃ s, item.HasSchema defs s ∧ CodedAs defs encoder decoder s := by
  rw [Item.Distinct] at hdistinct
  rw [Item.OfCodec] at hcodec
  cases hbody : item.body with
  | record fields =>
    rw [hbody] at hdistinct hcodec
    obtain ⟨schemas, hschemas⟩ := hcodec
    exact exists_hasSchema_of_record hbody hdistinct hschemas hencode hdecode
  | sum alternatives =>
    rw [hbody] at hdistinct hcodec
    exact exists_hasSchema_of_sum hbody hdistinct hcodec hencode hdecode
  | union fields =>
    rw [encodePlan, hbody] at hencode
    cases hencode

end

end Scale.Derive
