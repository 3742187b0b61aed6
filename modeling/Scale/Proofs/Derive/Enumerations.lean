import Scale.Catalogue
import Scale.Proofs.Derive.Acceptance
import Scale.Proofs.Derive.Plans
import Scale.Proofs.IntegerCoding

namespace Scale.Derive

variable {τ : Type}

/-- The integer of an alternative: the declared one, or one more than that of the alternative before it.
    An alternative at the front that declares none has zero. -/
inductive Discriminant (alternatives : List (Alternative τ)) : Nat → Int → Prop where
  | declared {i alternative n} : alternatives[i]? = some alternative →
    alternative.discriminant? = some n → Discriminant alternatives i n
  | first {alternative} : alternatives[0]? = some alternative →
    alternative.discriminant? = none → Discriminant alternatives 0 0
  | next {i alternative n} : Discriminant alternatives i n →
    alternatives[i + 1]? = some alternative → alternative.discriminant? = none →
    Discriminant alternatives (i + 1) (n + 1)

/-- The first number is the declared one, or the given one. -/
theorem getElem?_zero_number (next : Int) (declared : List (String × Option Int)) :
    (Enumeration.number next declared)[0]?.map (·.2) = declared[0]?.map (·.2.getD next) := by
  cases declared <;> rfl

/-- Each further one is the declared one, or one more than the one before. -/
theorem getElem?_succ_number (next : Int) (declared : List (String × Option Int)) (i : Nat) :
    (Enumeration.number next declared)[i + 1]?.map (·.2) =
      declared[i + 1]?.bind fun entry =>
        entry.2.or ((Enumeration.number next declared)[i]?.map (·.2 + 1)) := by
  induction declared generalizing next i with
  | nil => rfl
  | cons entry rest ih =>
    rw [Enumeration.number, List.getElem?_cons_succ, List.getElem?_cons_succ]
    cases i with
    | zero =>
      rw [getElem?_zero_number]
      cases rest[0]? with
      | none => rfl
      | some following =>
        obtain ⟨_, _ | _⟩ := following <;> rfl
    | succ i => exact ih _ i

variable {alternatives : List (Alternative τ)} {repr : FixedInt} {i : Nat} {n : Int}

theorem discriminant?_zero : (enumeration repr alternatives).discriminant? 0 =
    alternatives[0]?.map fun alternative => alternative.discriminant?.getD 0 := by
  change (Enumeration.number 0 _)[0]?.map (·.2) = _
  rw [getElem?_zero_number, List.getElem?_map, Option.map_map]
  rfl

theorem discriminant?_succ : (enumeration repr alternatives).discriminant? (i + 1) =
    alternatives[i + 1]?.bind fun alternative => alternative.discriminant?.or
      (((enumeration repr alternatives).discriminant? i).map (· + 1)) := by
  change (Enumeration.number 0 _)[i + 1]?.map (·.2) = _
  rw [getElem?_succ_number, List.getElem?_map, Option.bind_map, Enumeration.discriminant?,
    Option.map_map]
  rfl

/-- The integers that are given to the alternatives are those. -/
theorem discriminant?_iff :
    (enumeration repr alternatives).discriminant? i = some n ↔ Discriminant alternatives i n := by
  constructor
  · intro hnumber
    induction i generalizing n with
    | zero =>
      rw [discriminant?_zero] at hnumber
      obtain ⟨alternative, hget, hn⟩ := Option.map_eq_some_iff.1 hnumber
      cases hdeclared : alternative.discriminant? with
      | some m =>
        rw [hdeclared, Option.getD_some] at hn
        exact .declared hget (hn ▸ hdeclared)
      | none =>
        rw [hdeclared, Option.getD_none] at hn
        exact hn ▸ .first hget hdeclared
    | succ i ih =>
      rw [discriminant?_succ] at hnumber
      obtain ⟨alternative, hget, hn⟩ := Option.bind_eq_some_iff.1 hnumber
      cases hdeclared : alternative.discriminant? with
      | some m =>
        rw [hdeclared, Option.some_or] at hn
        exact .declared hget (hn ▸ hdeclared)
      | none =>
        rw [hdeclared, Option.none_or] at hn
        obtain ⟨m, hm, rfl⟩ := Option.map_eq_some_iff.1 hn
        exact .next (ih hm) hget hdeclared
  · intro hdiscriminant
    induction hdiscriminant with
    | @declared i alternative n hget hdeclared =>
      cases i with
      | zero => rw [discriminant?_zero, hget, Option.map_some, hdeclared, Option.getD_some]
      | succ i => rw [discriminant?_succ, hget, Option.bind_some, hdeclared, Option.some_or]
    | first hget hdeclared =>
      rw [discriminant?_zero, hget, Option.map_some, hdeclared, Option.getD_none]
    | next _ hget hdeclared ih =>
      rw [discriminant?_succ, hget, Option.bind_some, hdeclared, Option.none_or, ih, Option.map_some]

theorem length_number (next : Int) (declared : List (String × Option Int)) :
    (Enumeration.number next declared).length = declared.length := by
  induction declared generalizing next with
  | nil => rfl
  | cons entry rest ih => exact congrArg Nat.succ (ih _)

/-- Each alternative has just one integer. -/
theorem exists_discriminant (hlt : i < alternatives.length) :
    ∃ n, Discriminant alternatives i n ∧ ∀ m, Discriminant alternatives i m → m = n := by
  have hlength : (enumeration .u8 alternatives).alternatives.length = alternatives.length := by
    change (Enumeration.number 0 _).length = _
    rw [length_number, List.length_map]
  obtain ⟨n, hnumber⟩ : ∃ n, (enumeration .u8 alternatives).discriminant? i = some n := by
    rw [Enumeration.discriminant?, List.getElem?_eq_getElem (hlength ▸ hlt)]
    exact ⟨_, rfl⟩
  refine ⟨n, discriminant?_iff.1 hnumber, fun m hm => ?_⟩
  exact Option.some.inj ((discriminant?_iff.2 hm).symm.trans hnumber)

/-- The integers are such as can be declared: all are of one type, that of the declaration, and no two
    are the same. A cast to the underlying type does not change them, as far as it can be seen in the
    widest signed type. -/
structure Declarable (repr : FixedInt) (alternatives : List (Alternative τ)) : Prop where
  contained : ∃ own : FixedInt, ∀ {i n}, Discriminant alternatives i n → own.contains n = true
  distinct : ∀ {i j n}, Discriminant alternatives i n → Discriminant alternatives j n → i = j
  kept : ∀ {i n}, Discriminant alternatives i n →
    FixedInt.i128.wrap n = FixedInt.i128.wrap (repr.wrap n)

/-- Different numbers of a type can be told apart in the widest signed type. -/
theorem eq_of_wrap_i128_eq {own : FixedInt} {m n : Int} (hm : own.contains m = true)
    (hn : own.contains n = true) (hsame : FixedInt.i128.wrap m = FixedInt.i128.wrap n) : m = n := by
  have hcard : own.card ≤ 2 ^ 128 := by
    unfold FixedInt.card FixedInt.bytes
    cases own.width <;> decide
  have hmod : m % FixedInt.i128.card = n % FixedInt.i128.card := by
    rw [← FixedInt.i128.emod_wrap m, hsame, FixedInt.i128.emod_wrap]
  have hwide : (FixedInt.i128.card : Int) = 2 ^ 128 := rfl
  rw [hwide] at hmod
  rw [own.contains_iff] at hm hn
  omega

/-- So can they in the underlying type. -/
theorem Declarable.eq_of_wrap_eq (hdeclarable : Declarable repr alternatives) {i j : Nat} {m n : Int}
    (hm : Discriminant alternatives i m) (hn : Discriminant alternatives j n)
    (hsame : repr.wrap m = repr.wrap n) : i = j := by
  obtain ⟨own, hcontained⟩ := hdeclarable.contained
  have hwide : FixedInt.i128.wrap m = FixedInt.i128.wrap n := by
    rw [hdeclarable.kept hm, hsame, hdeclarable.kept hn]
  obtain rfl := eq_of_wrap_i128_eq (hcontained hm) (hcontained hn) hwide
  exact hdeclarable.distinct hm hn

/-- Different numbers of the underlying type can be declared. -/
theorem declarable_of_contains
    (hcontains : ∀ entry ∈ (enumeration repr alternatives).alternatives,
      repr.contains entry.2 = true)
    (hnodup : ((enumeration repr alternatives).alternatives.map (·.2)).Nodup) :
    Declarable repr alternatives := by
  have hnumber : ∀ {i n}, Discriminant alternatives i n →
      (enumeration repr alternatives).discriminant? i = some n := fun hn => discriminant?_iff.2 hn
  have hcontained : ∀ {i n}, Discriminant alternatives i n → repr.contains n = true :=
    fun hn => Enumeration.contains_of_discriminant? hcontains (hnumber hn)
  refine ⟨⟨repr, hcontained⟩, fun hi hj => ?_, fun hn => ?_⟩
  · exact Enumeration.eq_of_discriminant?_eq hnodup (hnumber hi) (hnumber hj)
  · rw [repr.wrap_of_contains (hcontained hn)]

/-- The alternatives of an enumeration are found by their integers in the underlying type. -/
theorem inverts_enumeration (hdeclarable : Declarable repr alternatives) :
    (enumeration repr alternatives).coding.Inverts fun i => ∃ n, Discriminant alternatives i n where
  contains := by
    rintro i ⟨n, hn⟩
    rw [Enumeration.toRepr_of_discriminant? (discriminant?_iff.2 hn)]
    exact repr.contains_wrap n
  found := by
    rintro i ⟨n, hn⟩
    rw [Enumeration.toRepr_of_discriminant? (discriminant?_iff.2 hn)]
    refine Enumeration.index?_of_discriminant? (discriminant?_iff.2 hn) fun j m hm hsame => ?_
    exact Nat.le_of_eq (hdeclarable.eq_of_wrap_eq hn (discriminant?_iff.1 hm) hsame.symm)
  of_found := by
    intro n i _ hfound
    obtain ⟨m, hm, _⟩ := Enumeration.exists_discriminant?_of_index? hfound
    exact ⟨⟨m, discriminant?_iff.1 hm⟩, Enumeration.toRepr_of_index? hfound⟩

/-- An enumeration that is accepted is coded as the integers of its alternatives. -/
theorem codesIntegers_enumeration (hdeclarable : Declarable repr alternatives) :
    CodesIntegers repr
      (fun v n => ∃ i, v = Value.tagged i .unit ∧ Discriminant alternatives i n)
      (EncodePlan.integers (enumeration repr alternatives)).write
      (DecodePlan.integers (enumeration repr alternatives)).read := by
  refine (inverts_enumeration hdeclarable).codesIntegers.map (f := (Value.tagged · .unit)) (fun _ => rfl)
    ?_ ?_
  · rintro i _ ⟨⟨n, hn⟩, rfl⟩
    refine ⟨n, ⟨i, rfl, hn⟩, ?_⟩
    rw [Enumeration.toRepr_of_discriminant? (discriminant?_iff.2 hn)]
    exact (repr.toBytes_wrap n).symm
  · rintro _ n ⟨i, rfl, hn⟩
    refine ⟨i, _, rfl, ⟨⟨n, hn⟩, rfl⟩, ?_⟩
    rw [Enumeration.toRepr_of_discriminant? (discriminant?_iff.2 hn)]
    exact repr.toBytes_wrap n

/-- The plans of an enumeration by integers that the encoder accepts. -/
theorem plans_of_integers {item : Item τ} {options : TypeOptions} {encoder : EncodePlan τ}
    (hbody : item.body = .sum alternatives) (hoptions : typeOptions item.attributes = .ok options)
    (hrepr : options.repr = some repr) (hencode : encodePlan item = .ok encoder) :
    alternatives.length ≤ 256 ∧ encoder = .integers (enumeration repr alternatives) ∧
      decodePlan item = .ok (.integers (enumeration repr alternatives)) := by
  simp only [encodePlan, hbody] at hencode
  obtain ⟨_, hcount, hencode⟩ := bind_eq_ok_iff.1 hencode
  obtain ⟨_, hoptions', hencode⟩ := bind_eq_ok_iff.1 hencode
  obtain rfl := Except.ok.inj (hoptions.symm.trans hoptions')
  refine ⟨length_le_of_checkCount hcount, ?_, ?_⟩
  · change (if _ then _ else _) = _ at hencode
    split at hencode
    · cases hencode
    · simp only [hrepr] at hencode
      exact (encodeIntegers_eq_ok_iff.1 hencode).2
  · simp only [decodePlan, hbody, hcount, hoptions]
    cases options
    cases hrepr
    rfl

/-- An enumeration by integers that is accepted is written as the integers of its alternatives and is
    read from these and nothing else. So is every other type whose values stand for integers and are
    found by them. -/
theorem Item.coded_as_integers :
    (∀ (item : Item FieldType) (alternatives : List (Alternative FieldType)) (options : TypeOptions)
        (repr : FixedInt) (encoder : EncodePlan FieldType),
      item.body = .sum alternatives → typeOptions item.attributes = .ok options →
      options.repr = some repr → encodePlan item = .ok encoder → Declarable repr alternatives →
      alternatives.length ≤ 256 ∧
      (∀ i < alternatives.length, ∃ n, Discriminant alternatives i n ∧
        ∀ m, Discriminant alternatives i m → m = n) ∧
      ∃ decoder, decodePlan item = .ok decoder ∧
        CodesIntegers repr (fun v n => ∃ i, v = .tagged i .unit ∧ Discriminant alternatives i n)
          encoder.write decoder.read) ∧
    ∀ {α : Type} (coding : IntegerCoding α) (valid : α → Prop), coding.Inverts valid →
      CodesIntegers coding.repr (fun a n => valid a ∧ coding.toRepr a = n) coding.put coding.take := by
  refine ⟨fun item alternatives options repr encoder hbody hoptions hrepr hencode hdeclarable => ?_,
    fun coding valid hinverts => hinverts.codesIntegers⟩
  obtain ⟨hlength, rfl, hdecode⟩ := plans_of_integers hbody hoptions hrepr hencode
  exact ⟨hlength, fun i hlt => exists_discriminant hlt, _, hdecode,
    codesIntegers_enumeration hdeclarable⟩

/-- A step down, one in place and a large one up. -/
def deltaAlternatives : List (Alternative FieldType) :=
  [⟨"Down", .unit, some (-1), []⟩, ⟨"Still", .unit, none, []⟩, ⟨"Up", .unit, some 300, []⟩]

/-- The enumeration of these, in two bytes with a sign. -/
def deltaItem : Item FieldType :=
  ⟨"Delta", [.list ["scale"] [.assign ["repr"] (.text "i16")]], [], .sum deltaAlternatives⟩

-- The type's name is looked for in the tables of letters first.
set_option maxRecDepth 3000 in
theorem typeOptions_deltaItem : typeOptions deltaItem.attributes = .ok ⟨some .i16, none⟩ :=
  rfl

/-- The alternative that declares no integer is zero, and comes back from two clear bytes. A percentage
    comes back from its byte. -/
theorem Item.coded_as_integers_delta_and_percent :
    (∃ decoder, decodePlan deltaItem = .ok decoder ∧ ∀ (source : Source) rest,
      source.bytes = 0 :: 0 :: rest →
        decoder.read source = .ok (.tagged 1 .unit) (source.withBytes rest)) ∧
    ∀ (source : Source) rest, source.bytes = 100 :: rest →
      Catalogue.percent.coding.take source = .ok 100 (source.withBytes rest) := by
  constructor
  · have hencode : encodePlan deltaItem = .ok (.integers (enumeration .i16 deltaAlternatives)) := by
      simp only [encodePlan, typeOptions_deltaItem]
      rfl
    have hdeclarable : Declarable .i16 deltaAlternatives :=
      declarable_of_contains (by decide) (by decide)
    obtain ⟨_, _, decoder, hdecode, hcodes⟩ := Item.coded_as_integers.1 deltaItem deltaAlternatives
      _ .i16 _ rfl typeOptions_deltaItem rfl hencode hdeclarable
    have hdown : Discriminant deltaAlternatives 0 (-1) := .declared rfl rfl
    have hstill : Discriminant deltaAlternatives 1 0 := .next hdown rfl rfl
    refine ⟨decoder, hdecode, fun source rest hbytes => ?_⟩
    exact (hcodes.ok_iff _ _ _).2 ⟨0, rest, ⟨1, rfl, hstill⟩, hbytes, rfl⟩
  · have hinverts : Catalogue.percent.coding.Inverts fun n => 0 ≤ n ∧ n ≤ 100 := by
      refine ⟨fun {n} hn => ?_, fun {n} hn => if_pos hn, fun {n m} _ hfound => ?_⟩
      · exact (FixedInt.u8.contains_iff).2 ⟨hn.1, Int.lt_of_le_of_lt hn.2 (by decide)⟩
      · obtain rfl := IntegerRange.eq_of_ofRepr? hfound
        change (if 0 ≤ m ∧ m ≤ 100 then some m else none) = some m at hfound
        split at hfound
        · next hin => exact ⟨hin, rfl⟩
        · cases hfound
    intro source rest hbytes
    have hcodes := Item.coded_as_integers.2 Catalogue.percent.coding _ hinverts
    exact (hcodes.ok_iff _ _ _).2 ⟨100, rest, ⟨by decide, rfl⟩, hbytes, rfl⟩

end Scale.Derive
