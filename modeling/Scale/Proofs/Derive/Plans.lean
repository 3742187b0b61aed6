import Scale.Encode
import Scale.Overwrite
import Scale.Proofs.Consumption
import Scale.Proofs.Derive.Products
import Scale.Proofs.Reading.Refusals

namespace Scale.Derive

/-- The type of a field that is of a type of the codec, given what its compact form and its default
    value are. -/
def codecField {ι : Type} (defs : Definitions ι Empty) (plain compact : Schema ι Empty)
    (default : Value) : FieldType where
  plain := ⟨defs.write plain, defs.read plain⟩
  compact := ⟨defs.write compact, defs.read compact⟩
  overwrite := defs.overwrite plain
  default := default

/-- The coding takes bytes off the front of a source only, and at least one where it fails, unless
    that is for lack of data. -/
structure Coding.Late (coding : Coding) : Prop where
  takesPrefix : Reader.TakesPrefix coding.read
  refusesLate : Reader.RefusesLate coding.read

/-- The type of a field is coded so either way. -/
structure FieldType.Late (type : FieldType) : Prop where
  plain : type.plain.Late
  compact : type.compact.Late

/-- So are all types of the codec. -/
theorem late_codecField {ι : Type} {defs : Definitions ι Empty} {plain compact : Schema ι Empty}
    {default : Value} (hplain : defs.WellFormed plain) (hcompact : defs.WellFormed compact) :
    (codecField defs plain compact default).Late where
  plain := ⟨defs.takesPrefix_read plain, Definitions.refusesLate_read hplain⟩
  compact := ⟨defs.takesPrefix_read compact, Definitions.refusesLate_read hcompact⟩

/-- No product of the declaration has two fields that are called the same. -/
def Item.Distinct {τ : Type} (item : Item τ) : Prop :=
  match item.body with
  | .record fields => fields.Distinct
  | .sum alternatives => ∀ alternative ∈ alternatives, alternative.fields.Distinct
  | .union fields => fields.Distinct

/-- A sum is written and read as one byte, the place of the alternative in the declaration, and then
    as the fields of the alternative that are not skipped. A byte that is no such place is refused
    after it has been taken, and, where the types of the fields are not refused before anything is
    taken, no other byte is. -/
structure CodesSum (alternatives : List (Alternative FieldType)) (write : Value → Writer Unit)
    (read : Reader Value) : Prop where
  length_le : alternatives.length ≤ 256
  arm : ∀ (tag : UInt8) alternative, alternatives[tag.toNat]? = some alternative →
    ∃ coded writeFields readFields, alternative.fields.Codes none coded ∧
      alternative.fields.CodedBy coded writeFields readFields ∧
      (∀ values, write (.tagged tag.toNat (.list values)) = do
        Writer.putByte tag
        writeFields values) ∧
      (∀ (source : Source) rest, source.bytes = tag :: rest → read source =
        (do return .tagged tag.toNat (← readFields) : Reader Value) (source.withBytes rest))
  empty : ∀ source : Source, source.bytes = [] → read source = .error .notEnoughData source
  refused : ∀ (source : Source) (tag : UInt8) rest, source.bytes = tag :: rest →
    alternatives.length ≤ tag.toNat →
      read source = .error .wrongTypeIndex (source.withBytes rest)
  refused_iff : (∀ alternative ∈ alternatives, ∀ field ∈ alternative.fields.toList,
      field.type.Late) →
    ∀ (source : Source) (tag : UInt8) rest, source.bytes = tag :: rest →
      (read source = .error .wrongTypeIndex (source.withBytes rest) ↔
        alternatives.length ≤ tag.toNat)

variable {τ : Type}

/-- The arms of an encoder are those of the alternatives, tagged by their places. -/
theorem getElem?_encodeArms {start : Nat} {alternatives : List (Alternative τ)}
    {arms : List (EncodeArm τ)} (harms : encodeArms start alternatives = .ok arms) {i : Nat}
    {alternative : Alternative τ} (hget : alternatives[i]? = some alternative) :
    ∃ all coded, declaredFields alternative.fields = .ok all ∧
      codedFields all none = .ok coded ∧ arms[i]? = some ⟨start + i, alternative.name, coded⟩ := by
  induction alternatives generalizing start arms i with
  | nil => cases hget
  | cons first alternatives ih =>
    obtain ⟨arm, harm, hrest⟩ := bind_eq_ok_iff.1 harms
    obtain ⟨others, hothers, hcons⟩ := bind_eq_ok_iff.1 hrest
    obtain rfl := Except.ok.inj hcons
    cases i with
    | zero =>
      obtain rfl := Option.some.inj hget
      obtain ⟨all, hall, hsteps⟩ := bind_eq_ok_iff.1 harm
      obtain ⟨coded, hcoded, heq⟩ := bind_eq_ok_iff.1 hsteps
      obtain rfl := Except.ok.inj heq
      exact ⟨all, coded, hall, hcoded, rfl⟩
    | succ i =>
      obtain ⟨all, coded, hall, hcoded, harm⟩ := ih hothers hget
      refine ⟨all, coded, hall, hcoded, ?_⟩
      rw [List.getElem?_cons_succ, harm, Nat.add_right_comm, Nat.add_assoc]

/-- So are those of a decoder. -/
theorem getElem?_decodeArms {start : Nat} {alternatives : List (Alternative τ)}
    {arms : List (Nat × DecodeProduct τ)} (harms : decodeArms start alternatives = .ok arms)
    {i : Nat} {alternative : Alternative τ} (hget : alternatives[i]? = some alternative) :
    ∃ all coded, declaredFields alternative.fields = .ok all ∧
      codedFields all none = .ok coded ∧
      arms[i]? = some (start + i, decodeProduct alternative.name all coded) := by
  induction alternatives generalizing start arms i with
  | nil => cases hget
  | cons first alternatives ih =>
    obtain ⟨all, hall, hrest⟩ := bind_eq_ok_iff.1 harms
    obtain ⟨coded, hcoded, hrest⟩ := bind_eq_ok_iff.1 hrest
    obtain ⟨others, hothers, hcons⟩ := bind_eq_ok_iff.1 hrest
    obtain rfl := Except.ok.inj hcons
    cases i with
    | zero =>
      obtain rfl := Option.some.inj hget
      exact ⟨all, coded, hall, hcoded, rfl⟩
    | succ i =>
      obtain ⟨all, coded, hall, hcoded, harm⟩ := ih hothers hget
      refine ⟨all, coded, hall, hcoded, ?_⟩
      rw [List.getElem?_cons_succ, harm, Nat.add_right_comm, Nat.add_assoc]

theorem length_le_of_checkCount {alternatives : List (Alternative τ)}
    (hcount : checkCount alternatives = .ok ()) : alternatives.length ≤ 256 := by
  by_cases hmany : maxAlternatives < alternatives.length
  · rw [checkCount, if_pos hmany] at hcount
    cases hcount
  · exact Nat.not_lt.1 hmany

/-- The plans that are made of a record. -/
theorem exists_of_recordPlans {item : Item τ} {fields : Fields τ} {encoder : EncodePlan τ}
    {decoder : DecodePlan τ} (hbody : item.body = .record fields)
    (hencode : encodePlan item = .ok encoder) (hdecode : decodePlan item = .ok decoder) :
    ∃ options all coded inPlace, typeOptions item.attributes = .ok options ∧
      declaredFields fields = .ok all ∧ codedFields all options.fields = .ok coded ∧
      encoder = .record coded ∧
      decoder = .record (decodeProduct item.name all coded) inPlace := by
  simp only [encodePlan, hbody] at hencode
  simp only [decodePlan, hbody] at hdecode
  obtain ⟨options, hoptions, hencode⟩ := bind_eq_ok_iff.1 hencode
  obtain ⟨_, hoptions', hdecode⟩ := bind_eq_ok_iff.1 hdecode
  obtain rfl := Except.ok.inj (hoptions.symm.trans hoptions')
  cases hrepr : options.repr with
  | some repr =>
    rw [hrepr] at hencode
    cases hencode
  | none =>
    rw [hrepr] at hencode hdecode
    obtain ⟨all, hall, hencode⟩ := bind_eq_ok_iff.1 hencode
    obtain ⟨coded, hcoded, hencode⟩ := bind_eq_ok_iff.1 hencode
    obtain ⟨_, hall', hdecode⟩ := bind_eq_ok_iff.1 hdecode
    obtain rfl := Except.ok.inj (hall.symm.trans hall')
    obtain ⟨_, hcoded', hdecode⟩ := bind_eq_ok_iff.1 hdecode
    obtain rfl := Except.ok.inj (hcoded.symm.trans hcoded')
    exact ⟨options, all, coded, _, hoptions, hall, hcoded, (Except.ok.inj hencode).symm,
      (Except.ok.inj hdecode).symm⟩

/-- The plan that is made of a record for the decoder. -/
theorem exists_of_decodePlan {item : Item τ} {fields : Fields τ} {decoder : DecodePlan τ}
    (hbody : item.body = .record fields) (hdecode : decodePlan item = .ok decoder) :
    ∃ options all coded, typeOptions item.attributes = .ok options ∧
      declaredFields fields = .ok all ∧ codedFields all options.fields = .ok coded ∧
      decoder = .record (decodeProduct item.name all coded)
        (if coded.length = all.length then none else some coded) := by
  simp only [decodePlan, hbody] at hdecode
  obtain ⟨options, hoptions, hdecode⟩ := bind_eq_ok_iff.1 hdecode
  cases hrepr : options.repr with
  | some repr =>
    rw [hrepr] at hdecode
    cases hdecode
  | none =>
    rw [hrepr] at hdecode
    obtain ⟨all, hall, hdecode⟩ := bind_eq_ok_iff.1 hdecode
    obtain ⟨coded, hcoded, hdecode⟩ := bind_eq_ok_iff.1 hdecode
    exact ⟨options, all, coded, hoptions, hall, hcoded, (Except.ok.inj hdecode).symm⟩

/-- The plans that are made of a sum without an underlying integer. -/
theorem exists_of_sumPlans {item : Item τ} {alternatives : List (Alternative τ)}
    {encoder : EncodePlan τ} {decoder : DecodePlan τ} {options : TypeOptions}
    (hbody : item.body = .sum alternatives) (hoptions : typeOptions item.attributes = .ok options)
    (hrepr : options.repr = none) (hencode : encodePlan item = .ok encoder)
    (hdecode : decodePlan item = .ok decoder) :
    ∃ steps arms, alternatives.length ≤ 256 ∧ encodeArms 0 alternatives = .ok steps ∧
      decodeArms 0 alternatives = .ok arms ∧ encoder = .sum steps ∧
      decoder = .sum alternatives.length arms := by
  simp only [encodePlan, hbody] at hencode
  simp only [decodePlan, hbody] at hdecode
  obtain ⟨_, hcount, hencode⟩ := bind_eq_ok_iff.1 hencode
  obtain ⟨_, _, hdecode⟩ := bind_eq_ok_iff.1 hdecode
  obtain ⟨_, hoptions', hdecode⟩ := bind_eq_ok_iff.1 hdecode
  obtain rfl := Except.ok.inj (hoptions.symm.trans hoptions')
  rw [hoptions] at hencode
  change (if _ then _ else _) = _ at hencode
  split at hencode
  · cases hencode
  · simp only [hrepr] at hencode hdecode
    obtain ⟨steps, hsteps, hencode⟩ := bind_eq_ok_iff.1 hencode
    obtain ⟨arms, harms, hdecode⟩ := bind_eq_ok_iff.1 hdecode
    exact ⟨steps, arms, length_le_of_checkCount hcount, hsteps, harms,
      (Except.ok.inj hencode).symm, (Except.ok.inj hdecode).symm⟩

/-- A decoder of a sum takes the tag, and goes on with the arm of the tag. -/
theorem read_sum {count : Nat} {arms : List (Nat × DecodeProduct FieldType)} {source : Source}
    {tag : UInt8} {rest : List UInt8} {arm : Nat × DecodeProduct FieldType}
    (hbytes : source.bytes = tag :: rest) (hlt : tag.toNat < count)
    (harm : arms[tag.toNat]? = some arm) :
    (DecodePlan.sum count arms).read source =
      (do return .tagged tag.toNat (← arm.2.read) : Reader Value) (source.withBytes rest) := by
  rw [DecodePlan.read, Step.bind_of_ok (Reader.takeTag_of_lt hbytes hlt), harm]

/-- Fields whose types are refused late are so one after the other. -/
theorem Fields.CodedBy.refusesLate {fields : Fields FieldType}
    {coded : List (DeclaredField FieldType)} {write : List Value → Writer Unit}
    {read : Reader Value} (hcoded : fields.CodedBy coded write read)
    (hdeclares : ∀ f ∈ coded, fields.Declares f)
    (hlate : ∀ field ∈ fields.toList, field.type.Late) : Reader.RefusesLate read := by
  have hcoding : ∀ f ∈ coded, f.coding.Late := by
    intro f hf
    obtain ⟨field, hfield, _, htype, _⟩ := hdeclares f hf
    have htypeLate : f.type.Late := htype ▸ hlate field (List.mem_of_getElem? hfield)
    rw [DeclaredField.coding]
    split
    · exact htypeLate.compact
    · exact htypeLate.plain
  obtain ⟨assemble, _, rfl⟩ := hcoded.read_eq
  exact (Reader.RefusesLate.mapM (fun f hf => (hcoding f hf).refusesLate)
    fun f hf => (hcoding f hf).takesPrefix).map

/-- What the two derives make of the alternatives of a sum. -/
theorem codesSum_of_arms {alternatives : List (Alternative FieldType)}
    {steps : List (EncodeArm FieldType)} {arms : List (Nat × DecodeProduct FieldType)}
    (hdistinct : ∀ alternative ∈ alternatives, alternative.fields.Distinct)
    (hlength : alternatives.length ≤ 256) (hsteps : encodeArms 0 alternatives = .ok steps)
    (harms : decodeArms 0 alternatives = .ok arms) :
    CodesSum alternatives (EncodePlan.sum steps).write
      (DecodePlan.sum alternatives.length arms).read := by
  have harm : ∀ (tag : UInt8) alternative, alternatives[tag.toNat]? = some alternative →
      ∃ coded writeFields readFields, alternative.fields.Codes none coded ∧
        alternative.fields.CodedBy coded writeFields readFields ∧
        (∀ values, (EncodePlan.sum steps).write (.tagged tag.toNat (.list values)) = do
          Writer.putByte tag
          writeFields values) ∧
        (∀ (source : Source) rest, source.bytes = tag :: rest →
          (DecodePlan.sum alternatives.length arms).read source =
            (do return .tagged tag.toNat (← readFields) : Reader Value)
              (source.withBytes rest)) := by
    intro tag alternative hget
    obtain ⟨all, coded, hall, hcoded, hstep⟩ := getElem?_encodeArms hsteps hget
    obtain ⟨all', coded', hall', hcoded', harm⟩ := getElem?_decodeArms harms hget
    obtain rfl := Except.ok.inj (hall.symm.trans hall')
    obtain rfl := Except.ok.inj (hcoded.symm.trans hcoded')
    have hfields := hdistinct alternative (List.mem_of_getElem? hget)
    refine ⟨coded, _, _, codes_of_codedFields hall hcoded,
      codedBy_of_codedFields hfields hall hcoded alternative.name, fun values => ?_,
      fun source rest hbytes => ?_⟩
    · rw [EncodePlan.write, hstep, Nat.zero_add]
      dsimp only
      rw [UInt8.ofNat_toNat]
      rfl
    · exact read_sum hbytes (List.getElem?_eq_some_iff.1 hget).1 harm
  have hrefused : ∀ (source : Source) (tag : UInt8) rest, source.bytes = tag :: rest →
      alternatives.length ≤ tag.toNat → (DecodePlan.sum alternatives.length arms).read source =
        .error .wrongTypeIndex (source.withBytes rest) := by
    intro source tag rest hbytes hle
    exact Step.bind_of_error (Reader.takeTag_of_le hbytes hle)
  refine ⟨hlength, harm, fun source hbytes => ?_, hrefused, fun hlate source tag rest hbytes => ?_⟩
  · exact Step.bind_of_error (Reader.takeTag_of_nil hbytes)
  · refine ⟨fun hrun => Nat.not_lt.1 fun hlt => ?_, hrefused source tag rest hbytes⟩
    -- The fields of an alternative would be refused before a byte of theirs is taken.
    have hget := List.getElem?_eq_getElem hlt
    obtain ⟨coded, _, readFields, hcodes, hcoded, _, hread⟩ := harm tag _ hget
    rw [hread source rest hbytes] at hrun
    have hrefuses := hcoded.refusesLate hcodes.declares (hlate _ (List.getElem_mem hlt))
    exact absurd (hrefuses.map hrun (by decide)) (Nat.lt_irrefl _)

/-- A derived type is coded as the product or the sum of its coded fields. -/
theorem Item.coded_as_declared (item : Item FieldType) {encoder : EncodePlan FieldType}
    {decoder : DecodePlan FieldType} (hdistinct : item.Distinct)
    (hencode : encodePlan item = .ok encoder) (hdecode : decodePlan item = .ok decoder) :
    match item.body with
    | .record fields => ∃ options coded, typeOptions item.attributes = .ok options ∧
      fields.Codes options.fields coded ∧
      fields.CodedBy coded (fun values => encoder.write (.list values)) decoder.read
    | .sum alternatives => ∀ options, typeOptions item.attributes = .ok options →
      options.repr = none → CodesSum alternatives encoder.write decoder.read
    | .union _ => False := by
  rw [Item.Distinct] at hdistinct
  cases hbody : item.body with
  | record fields =>
    rw [hbody] at hdistinct
    obtain ⟨options, all, coded, inPlace, hoptions, hall, hcoded, rfl, rfl⟩ :=
      exists_of_recordPlans hbody hencode hdecode
    exact ⟨options, coded, hoptions, codes_of_codedFields hall hcoded,
      codedBy_of_codedFields hdistinct hall hcoded item.name⟩
  | sum alternatives =>
    rw [hbody] at hdistinct
    intro options hoptions hrepr
    obtain ⟨steps, arms, hlength, hsteps, harms, rfl, rfl⟩ :=
      exists_of_sumPlans hbody hoptions hrepr hencode hdecode
    exact codesSum_of_arms hdistinct hlength hsteps harms
  | union fields =>
    rw [encodePlan, hbody] at hencode
    cases hencode

/-- A field of a type of the codec that does not refer to recursive types. -/
def plainField (name : String) (plain compact : Schema Empty Empty) (default : Value)
    (attributes : List Meta) : Field FieldType :=
  ⟨some name, codecField .none plain compact default, attributes⟩

/-- The last field is coded first, in its compact form, and the one in the middle is not coded. -/
def reorderedFields : Fields FieldType :=
  .named [plainField "a" (.int .u16) (.compact (.fixed .u16)) (.int 0) [],
    plainField "b" .text .text (.text "") [],
    plainField "c" (.int .u32) (.compact (.fixed .u32)) (.int 0)
      [.list ["scale"] [.path ["compact"]]]]

/-- The record of these fields. -/
def reorderedItem : Item FieldType :=
  ⟨"Reordered", [.list ["scale"] [.list ["fields"] [.path ["c"], .path ["a"]]]], [],
    .record reorderedFields⟩

/-- An alternative without fields, and one with a compact number and a note that is not coded. -/
def sizedAlternatives : List (Alternative FieldType) :=
  [⟨"Empty", .unit, none, []⟩,
    ⟨"Sized", .named [
      plainField "size" (.int .u128) (.compact (.fixed .u128)) (.int 0)
        [.list ["scale"] [.path ["compact"]]],
      plainField "note" .text .text (.text "") [.list ["scale"] [.path ["skip"]]]], none, []⟩]

/-- The sum of these alternatives. -/
def sizedItem : Item FieldType :=
  ⟨"Sized", [], [], .sum sizedAlternatives⟩

theorem Item.coded_as_declared_reordered_and_sized :
    (∃ encoder decoder coded, encodePlan reorderedItem = .ok encoder ∧
      decodePlan reorderedItem = .ok decoder ∧
      reorderedFields.Codes (some [.name "c", .name "a"]) coded ∧
      reorderedFields.CodedBy coded (fun values => encoder.write (.list values)) decoder.read) ∧
    ∃ encoder decoder, encodePlan sizedItem = .ok encoder ∧ decodePlan sizedItem = .ok decoder ∧
      CodesSum sizedAlternatives encoder.write decoder.read ∧
      ∀ (source : Source) (tag : UInt8) rest, source.bytes = tag :: rest →
        (decoder.read source = .error .wrongTypeIndex (source.withBytes rest) ↔
          2 ≤ tag.toNat) := by
  refine ⟨?_, _, _, rfl, rfl, ?_⟩
  · have hdistinct : reorderedItem.Distinct := by
      change reorderedFields.Distinct
      decide
    obtain ⟨options, coded, hoptions, hcodes, hcoded⟩ :=
      Item.coded_as_declared reorderedItem hdistinct rfl rfl
    obtain rfl := Except.ok.inj hoptions
    exact ⟨_, _, coded, rfl, rfl, hcodes, hcoded⟩
  · have hdistinct : sizedItem.Distinct := by
      change ∀ alternative ∈ sizedAlternatives, alternative.fields.Distinct
      decide
    have hwell : ∀ {s : Schema Empty Empty}, s.parts = [] → s.Admissible →
        Definitions.none.WellFormed s := fun hparts hs =>
      Definitions.forall_occurs_of_parts (fun name => name.elim) hs (by simp [hparts])
    have hlate : ∀ alternative ∈ sizedAlternatives, ∀ field ∈ alternative.fields.toList,
        field.type.Late := by
      simp only [sizedAlternatives, List.forall_mem_cons, List.not_mem_nil, false_implies,
        implies_true, and_true, Fields.toList, true_and]
      exact ⟨late_codecField (hwell rfl trivial) (hwell rfl trivial),
        late_codecField (hwell rfl trivial) (hwell rfl trivial)⟩
    have hsum := Item.coded_as_declared sizedItem hdistinct rfl rfl _ rfl rfl
    exact ⟨hsum, hsum.refused_iff hlate⟩

end Scale.Derive
