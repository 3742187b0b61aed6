import Scale.Derive.Plan

namespace Scale.Derive

variable {τ α β γ : Type}

/-- The reason for which nothing is made, if there is one. -/
def refusal? : Except DeriveError α → Option DeriveError
  | .ok _ => none
  | .error cause => some cause

/-- The reason for which a trait is not derived for a declaration, if there is one. -/
def Trait.refusal? : Trait → Item τ → Option DeriveError
  | encode, item => Derive.refusal? (encodePlan item)
  | decode, item => Derive.refusal? (decodePlan item)

/-- The alternatives of the declaration are to be coded as integers. -/
def Item.ByIntegers (item : Item τ) (alternatives : List (Alternative τ)) : Prop :=
  item.body = .sum alternatives ∧ ∃ options repr, typeOptions item.attributes = .ok options ∧
    options.repr = some repr

/-- A sum comes with a list of fields, which only records can have. -/
def Item.SumWithFields (item : Item τ) : Prop :=
  ∃ alternatives options listed, item.body = .sum alternatives ∧
    typeOptions item.attributes = .ok options ∧ options.fields = some listed

/-- Sequences that begin in the same way are refused for the same reason when they are from there. -/
theorem refusal?_bind_congr {first : Except DeriveError α} {next : α → Except DeriveError β}
    {next' : α → Except DeriveError γ}
    (hnext : ∀ a, first = .ok a → refusal? (next a) = refusal? (next' a)) :
    refusal? (first >>= next) = refusal? (first >>= next') := by
  cases first with
  | error cause => rfl
  | ok a => exact hnext a rfl

theorem refusal?_map (result : Except DeriveError α) (f : α → β) :
    refusal? (do return f (← result)) = refusal? result := by
  cases result <;> rfl

/-- The arms of a decoder are refused for the reason for which those of an encoder are. -/
theorem refusal?_arms (tag : Nat) (alternatives : List (Alternative τ)) :
    refusal? (encodeArms tag alternatives) = refusal? (decodeArms tag alternatives) := by
  induction alternatives generalizing tag with
  | nil => rfl
  | cons alternative rest ih =>
    rw [encodeArms, encodeArm, decodeArms, bind_assoc]
    refine refusal?_bind_congr fun all _ => ?_
    rw [bind_assoc]
    refine refusal?_bind_congr fun coded _ => ?_
    rw [pure_bind, refusal?_map, refusal?_map, ih]

/-- Records are refused for the same reason. -/
theorem refusal?_record {item : Item τ} {fields : Fields τ} (hbody : item.body = .record fields) :
    Trait.refusal? .encode item = Trait.refusal? .decode item := by
  simp only [Trait.refusal?, encodePlan, decodePlan, hbody]
  refine refusal?_bind_congr fun options _ => ?_
  cases options.repr with
  | some repr => rfl
  | none =>
    refine refusal?_bind_congr fun all _ => ?_
    exact (refusal?_map _ _).trans (refusal?_map _ _).symm

/-- An alternative is plain when it has neither parentheses nor braces. -/
theorem Alternative.isPlain_iff {alternative : Alternative τ} :
    alternative.isPlain = true ↔ alternative.fields = .unit := by
  unfold isPlain
  cases alternative.fields <;> simp

/-- The plan of an enumeration by integers, and what is asked of one. -/
theorem encodeIntegers_eq_ok_iff {params : List Param} {alternatives : List (Alternative τ)}
    {repr : FixedInt} {encoder : EncodePlan τ} :
    encodeIntegers params alternatives repr = .ok encoder ↔
      (params = [] ∧ alternatives ≠ [] ∧
        ∀ alternative ∈ alternatives, alternative.fields = .unit) ∧
      encoder = .integers (enumeration repr alternatives) := by
  have hplain : alternatives.all Alternative.isPlain = true ↔
      ∀ alternative ∈ alternatives, alternative.fields = .unit := by
    rw [List.all_eq_true]
    exact forall₂_congr fun _ _ => Alternative.isPlain_iff
  rw [← hplain, ← List.isEmpty_iff (l := params), ne_eq, ← List.isEmpty_iff (l := alternatives)]
  unfold encodeIntegers
  cases params.isEmpty with
  | false => exact iff_of_false nofun nofun
  | true =>
    cases alternatives.isEmpty with
    | true => exact iff_of_false nofun fun hfit => hfit.1.2.1 rfl
    | false =>
      cases alternatives.all Alternative.isPlain with
      | false => exact iff_of_false nofun fun hfit => absurd hfit.1.2.2 nofun
      | true =>
        constructor
        · exact fun hplan => ⟨⟨rfl, nofun, rfl⟩, (Except.ok.inj hplan).symm⟩
        · exact fun hplan => congrArg Except.ok hplan.2.symm

theorem refusal?_eq_none_iff {result : Except DeriveError α} :
    refusal? result = none ↔ ∃ a, result = .ok a := by
  cases result with
  | ok a => exact iff_of_true rfl ⟨a, rfl⟩
  | error cause => exact iff_of_false nofun nofun

/-- What the encoder asks of an enumeration by integers. -/
theorem refusal?_encodeIntegers_eq_none_iff {params : List Param}
    {alternatives : List (Alternative τ)} {repr : FixedInt} :
    refusal? (encodeIntegers params alternatives repr) = none ↔
      params = [] ∧ alternatives ≠ [] ∧
        ∀ alternative ∈ alternatives, alternative.fields = .unit := by
  rw [refusal?_eq_none_iff]
  constructor
  · rintro ⟨encoder, hencode⟩
    exact (encodeIntegers_eq_ok_iff.1 hencode).1
  · exact fun hfit => ⟨_, encodeIntegers_eq_ok_iff.2 ⟨hfit, rfl⟩⟩

theorem Item.fields_eq_none {item : Item τ} {alternatives : List (Alternative τ)}
    {options : TypeOptions} (hfields : ¬ item.SumWithFields) (hbody : item.body = .sum alternatives)
    (hoptions : typeOptions item.attributes = .ok options) : options.fields = none :=
  Option.eq_none_iff_forall_ne_some.2 fun listed hlisted =>
    hfields ⟨alternatives, options, listed, hbody, hoptions, hlisted⟩

/-- Sums are refused for the same reason, unless they are enumerations by integers or list fields. -/
theorem refusal?_sum {item : Item τ} {alternatives : List (Alternative τ)}
    (hbody : item.body = .sum alternatives) (hfields : ¬ item.SumWithFields)
    (hintegers : ¬ item.ByIntegers alternatives) :
    Trait.refusal? .encode item = Trait.refusal? .decode item := by
  simp only [Trait.refusal?, encodePlan, decodePlan, hbody]
  refine refusal?_bind_congr fun _ _ => refusal?_bind_congr fun options hoptions => ?_
  have hlisted := Item.fields_eq_none hfields hbody hoptions
  have hrepr : options.repr = none := Option.eq_none_iff_forall_ne_some.2 fun repr hrepr =>
    hintegers ⟨hbody, options, repr, hoptions, hrepr⟩
  rw [hlisted, hrepr]
  change refusal? (do return EncodePlan.sum (← encodeArms 0 alternatives)) = _
  rw [refusal?_map, refusal?_map, refusal?_arms]

/-- An enumeration by integers is refused by the decoder for having too many alternatives only. The
    encoder refuses it for that reason as well, or else when it is not fit to be one. -/
theorem refusal?_integers {item : Item τ} {alternatives : List (Alternative τ)}
    (hfields : ¬ item.SumWithFields) (hintegers : item.ByIntegers alternatives) :
    Trait.refusal? .decode item = refusal? (checkCount alternatives) ∧
      ∃ repr, Trait.refusal? .encode item = (refusal? (checkCount alternatives)).or
        (refusal? (encodeIntegers item.params alternatives repr)) := by
  obtain ⟨hbody, options, repr, hoptions, hrepr⟩ := hintegers
  have hlisted := Item.fields_eq_none hfields hbody hoptions
  simp only [Trait.refusal?, encodePlan, decodePlan, hbody, hoptions]
  cases options
  cases hlisted
  cases hrepr
  cases checkCount alternatives with
  | error cause => exact ⟨rfl, repr, rfl⟩
  | ok _ => exact ⟨rfl, repr, rfl⟩

theorem refusal?_checkCount_eq_none_iff {alternatives : List (Alternative τ)} :
    refusal? (checkCount alternatives) = none ↔ alternatives.length ≤ 256 := by
  unfold checkCount
  split
  · next hmany => exact iff_of_false nofun (Nat.not_le.2 hmany)
  · next hfew => exact iff_of_true rfl (Nat.not_lt.1 hfew)

/-- The two derives refuse the same declarations for the same reason, which for a union names the trait
    that was asked for. Of enumerations by integers the decoder refuses only those with too many
    alternatives, and the encoder, besides these, the ones with parameters, without alternatives or with
    fields. -/
theorem Item.accepted_alike (item : Item τ) (hfields : ¬ item.SumWithFields) :
    ((∀ alternatives, ¬ item.ByIntegers alternatives) →
      (Trait.refusal? .encode item = none ↔ Trait.refusal? .decode item = none) ∧
      match item.body with
      | .union _ => ∀ asked, Trait.refusal? asked item = some (.union asked)
      | _ => Trait.refusal? .encode item = Trait.refusal? .decode item) ∧
    ∀ alternatives, item.ByIntegers alternatives →
      (Trait.refusal? .decode item = none ↔ alternatives.length ≤ 256) ∧
      (Trait.refusal? .encode item = none ↔ Trait.refusal? .decode item = none ∧
        item.params = [] ∧ alternatives ≠ [] ∧
        ∀ alternative ∈ alternatives, alternative.fields = .unit) ∧
      ∀ cause, Trait.refusal? .decode item = some cause →
        Trait.refusal? .encode item = some cause := by
  refine ⟨fun hintegers => ?_, fun alternatives hintegers => ?_⟩
  · cases hbody : item.body with
    | record fields =>
      have hsame := refusal?_record hbody
      exact ⟨by rw [hsame], hsame⟩
    | sum alternatives =>
      have hsame := refusal?_sum hbody hfields (hintegers alternatives)
      exact ⟨by rw [hsame], hsame⟩
    | union fields =>
      have hunion : ∀ asked, Trait.refusal? asked item = some (.union asked) := by
        intro asked
        cases asked <;> simp only [Trait.refusal?, encodePlan, decodePlan, hbody, refusal?]
      exact ⟨by simp [hunion], hunion⟩
  · obtain ⟨hdecode, repr, hencode⟩ := refusal?_integers hfields hintegers
    rw [hencode, hdecode]
    refine ⟨refusal?_checkCount_eq_none_iff, ?_, fun cause hcause => by rw [hcause]; rfl⟩
    rw [Option.or_eq_none_iff, refusal?_encodeIntegers_eq_none_iff]

/-- The attribute that asks for bytes. -/
def asBytes : Meta :=
  .list ["scale"] [.assign ["repr"] (.text "u8")]

-- The type's name is looked for in the tables of letters first.
set_option maxRecDepth 3000 in
theorem typeOptions_asBytes : typeOptions [asBytes] = .ok ⟨some .u8, none⟩ :=
  rfl

/-- A plain alternative. -/
def plainRed : Alternative Unit :=
  ⟨"Red", .unit, some 1, []⟩

/-- An alternative with a field. -/
def shadedRed : Alternative Unit :=
  ⟨"Red", .tuple [⟨none, (), []⟩], none, []⟩

/-- An enumeration by bytes with the given parameters and alternatives. -/
def byteSum (params : List Param) (alternatives : List (Alternative Unit)) : Item Unit :=
  ⟨"Color", [asBytes], params, .sum alternatives⟩

/-- A sum of one plain alternative that lists the given fields. -/
def listingSum (listed : List Meta) : Item Unit :=
  ⟨"Color", [.list ["scale"] [.list ["fields"] listed]], [], .sum [plainRed]⟩

/-- Both accept a named byte, and only the decoder does when it has a parameter. -/
theorem Item.accepted_alike_bytes :
    Trait.refusal? .encode (byteSum [] [plainRed]) = none ∧
      Trait.refusal? .decode (byteSum [.type "T"] [plainRed]) = none ∧
      Trait.refusal? .encode (byteSum [.type "T"] [plainRed]) ≠ none := by
  have hfields (params alternatives) : ¬ (byteSum params alternatives).SumWithFields := by
    rintro ⟨_, options, listed, _, hlisting, hlisted⟩
    obtain rfl := Except.ok.inj (typeOptions_asBytes.symm.trans hlisting)
    cases hlisted
  have hintegers (params alternatives) : (byteSum params alternatives).ByIntegers alternatives :=
    ⟨rfl, _, .u8, typeOptions_asBytes, rfl⟩
  have hfew : [plainRed].length ≤ 256 := Nat.le_add_left 1 255
  have hall : ∀ alternative ∈ [plainRed], alternative.fields = .unit :=
    List.forall_mem_singleton.2 rfl
  have hplain := (Item.accepted_alike (byteSum [] [plainRed]) (hfields _ _)).2 _ (hintegers _ _)
  have hgeneric :=
    (Item.accepted_alike (byteSum [.type "T"] [plainRed]) (hfields _ _)).2 _ (hintegers _ _)
  refine ⟨hplain.2.1.2 ⟨hplain.1.2 hfew, rfl, nofun, hall⟩, hgeneric.1.2 hfew, fun hnone => ?_⟩
  exact absurd (hgeneric.2.1.1 hnone).2.1 nofun

/-- The decoder takes enumerations by integers that the encoder refuses. A sum that lists fields it
    takes as well, and one that lists none of them both do. -/
theorem Item.not_accepted_alike :
    (Trait.refusal? .encode (byteSum [.type "T"] [plainRed]) = some .reprGeneric ∧
      Trait.refusal? .decode (byteSum [.type "T"] [plainRed]) = none) ∧
    (Trait.refusal? .encode (byteSum [] []) = some .reprEmpty ∧
      Trait.refusal? .decode (byteSum [] []) = none) ∧
    (Trait.refusal? .encode (byteSum [] [shadedRed]) = some .reprWithFields ∧
      Trait.refusal? .decode (byteSum [] [shadedRed]) = none) ∧
    (Trait.refusal? .encode (listingSum [.path ["a"]]) = some .fieldsOnSum ∧
      Trait.refusal? .decode (listingSum [.path ["a"]]) = none) ∧
    Trait.refusal? .encode (listingSum []) = none ∧ Trait.refusal? .decode (listingSum []) = none := by
  simp only [Trait.refusal?, encodePlan, decodePlan, byteSum, typeOptions_asBytes]
  exact ⟨⟨rfl, rfl⟩, ⟨rfl, rfl⟩, ⟨rfl, rfl⟩, ⟨rfl, rfl⟩, rfl, rfl⟩

end Scale.Derive
