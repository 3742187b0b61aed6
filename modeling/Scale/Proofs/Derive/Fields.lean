import Scale.Derive.Codec

namespace Scale.Derive

variable {τ : Type}

theorem bind_eq_ok_iff {ε α β : Type} {result : Except ε α} {next : α → Except ε β} {b : β} :
    (result >>= next) = .ok b ↔ ∃ a, result = .ok a ∧ next a = .ok b := by
  constructor
  · intro hbind
    cases result with
    | error e => cases hbind
    | ok a => exact ⟨a, rfl, hbind⟩
  · rintro ⟨a, rfl, hnext⟩
    exact hnext

theorem mapError_eq_ok_iff {ε ε' α : Type} {result : Except ε α} {f : ε → ε'} {a : α} :
    result.mapError f = .ok a ↔ result = .ok a := by
  cases result with
  | ok b =>
    constructor
    · intro hrun
      exact congrArg Except.ok (Except.ok.inj hrun)
    · intro hrun
      exact congrArg Except.ok (Except.ok.inj hrun)
  | error e =>
    constructor
    · intro hrun
      cases hrun
    · intro hrun
      cases hrun

/-- What the field at a position is called. -/
def Field.member (field : Field τ) (position : Nat) : Member :=
  (field.name?.map Member.name).getD (.index position)

namespace Fields

/-- What the fields are called. -/
def members (fields : Fields τ) : List Member :=
  fields.toList.mapIdx fun position field => field.member position

/-- No two fields are called the same. -/
def Distinct (fields : Fields τ) : Prop :=
  fields.members.Nodup

instance (fields : Fields τ) : Decidable fields.Distinct :=
  inferInstanceAs (Decidable fields.members.Nodup)

/-- The field is the one at its position, by the name, type and options that it is declared
    with. -/
def Declares (fields : Fields τ) (f : DeclaredField τ) : Prop :=
  ∃ field, fields.toList[f.position]? = some field ∧ f.member = field.member f.position ∧
    f.type = field.type ∧ fieldOptions field.attributes = .ok f.options

/-- The fields that are coded, in the order in which they are: those that are listed, as listed,
    or, without a list, all that are not skipped, as declared. -/
structure Codes (fields : Fields τ) (listed : Option (List Member))
    (coded : List (DeclaredField τ)) : Prop where
  declares : ∀ f ∈ coded, fields.Declares f
  skip_eq : ∀ f ∈ coded, f.options.skip = false
  nodup_positions : (positions coded).Nodup
  in_order : match listed with
    | some members => coded.map DeclaredField.member = members
    | none => (positions coded).Pairwise (· < ·) ∧
      ∀ f, fields.Declares f → f.options.skip = false → f ∈ coded

variable {fields : Fields τ} {f g : DeclaredField τ} {all coded : List (DeclaredField τ)}

theorem Declares.lt_length (hf : fields.Declares f) : f.position < fields.toList.length := by
  obtain ⟨field, hfield, _⟩ := hf
  exact (List.getElem?_eq_some_iff.1 hfield).1

/-- A declared field is known by its position. -/
theorem Declares.eq_of_position (hf : fields.Declares f) (hg : fields.Declares g)
    (hposition : f.position = g.position) : f = g := by
  obtain ⟨field, hfield, hmember, htype, hoptions⟩ := hf
  obtain ⟨other, hother, hmember', htype', hoptions'⟩ := hg
  rw [hposition] at hfield hmember
  obtain rfl := Option.some.inj (hfield.symm.trans hother)
  have hsame : f.options = g.options := Except.ok.inj (hoptions.symm.trans hoptions')
  rw [← hmember'] at hmember
  rw [← htype'] at htype
  cases f
  cases g
  simp_all

/-- So is it by what it is called, unless another field is called the same. -/
theorem Declares.eq_of_member (hdistinct : fields.Distinct) (hf : fields.Declares f)
    (hg : fields.Declares g) (hmember : f.member = g.member) : f = g := by
  obtain ⟨field, hfield, hname, _⟩ := id hf
  obtain ⟨other, hother, hname', _⟩ := id hg
  have hlt : f.position < fields.members.length := by
    rw [members, List.length_mapIdx]
    exact hf.lt_length
  refine hf.eq_of_position hg ((List.getElem?_inj hlt hdistinct).1 ?_)
  rw [members, List.getElem?_mapIdx, List.getElem?_mapIdx, hfield, hother, Option.map_some,
    Option.map_some, ← hname, ← hname', hmember]

end Fields

/-- All fields are declared one after the other, from a position on. -/
theorem getElem?_declaredFrom {start : Nat} {fields : List (Field τ)} {all : List (DeclaredField τ)}
    (hall : declaredFrom start fields = .ok all) :
    positions all = List.range' start fields.length ∧
      ∀ f ∈ all, start ≤ f.position ∧ ∃ field, fields[f.position - start]? = some field ∧
        f.member = field.member f.position ∧ f.type = field.type ∧
          fieldOptions field.attributes = .ok f.options := by
  induction fields generalizing start all with
  | nil =>
    obtain rfl := Except.ok.inj hall
    exact ⟨rfl, nofun⟩
  | cons field fields ih =>
    obtain ⟨options, hoptions, hrest⟩ := bind_eq_ok_iff.1 hall
    obtain ⟨others, hothers, hcons⟩ := bind_eq_ok_iff.1 hrest
    obtain rfl := Except.ok.inj hcons
    obtain ⟨hpositions, hdeclared⟩ := ih hothers
    constructor
    · rw [List.length_cons, List.range'_succ, ← hpositions]
      rfl
    · intro f hf
      rcases List.mem_cons.1 hf with rfl | hf
      · exact ⟨Nat.le_refl start, field, by simp, rfl, rfl, hoptions⟩
      · obtain ⟨hle, other, hother, hfields⟩ := hdeclared f hf
        refine ⟨by omega, other, ?_, hfields⟩
        obtain ⟨k, hk⟩ : ∃ k, f.position - start = k + 1 := ⟨f.position - (start + 1), by omega⟩
        have hshift : f.position - (start + 1) = k := by omega
        rw [hk, List.getElem?_cons_succ, ← hshift]
        exact hother

theorem positions_of_declaredFields {fields : Fields τ} {all : List (DeclaredField τ)}
    (hall : declaredFields fields = .ok all) :
    positions all = List.range fields.toList.length := by
  rw [List.range_eq_range']
  exact (getElem?_declaredFrom hall).1

/-- The fields that are found are those that are declared. -/
theorem mem_declaredFields_iff {fields : Fields τ} {all : List (DeclaredField τ)}
    (hall : declaredFields fields = .ok all) {f : DeclaredField τ} :
    f ∈ all ↔ fields.Declares f := by
  have hdeclares : ∀ g ∈ all, fields.Declares g := by
    intro g hg
    obtain ⟨_, hfield⟩ := (getElem?_declaredFrom hall).2 g hg
    exact hfield
  refine ⟨hdeclares f, fun hf => ?_⟩
  have hposition : f.position ∈ positions all := by
    rw [positions_of_declaredFields hall]
    exact List.mem_range.2 hf.lt_length
  obtain ⟨g, hg, hsame⟩ := List.mem_map.1 hposition
  obtain rfl := (hdeclares g hg).eq_of_position hf hsame
  exact hg

theorem of_findMember? {all : List (DeclaredField τ)} {member : Member} {f : DeclaredField τ}
    (hfind : findMember? all member = some f) : f ∈ all ∧ f.member = member := by
  have hname := List.find?_some hfind
  exact ⟨List.mem_of_find?_eq_some hfind, beq_iff_eq.1 hname⟩

theorem any_member_iff {done : List (DeclaredField τ)} {member : Member} :
    (done.any fun other => other.member == member) = true ↔
      member ∈ done.map DeclaredField.member := by
  simp only [List.any_eq_true, List.mem_map, beq_iff_eq]

/-- What is listed is found one by one behind what is listed already. -/
theorem exists_of_listedFields {all done coded : List (DeclaredField τ)} {members : List Member}
    (hcoded : listedFields all done members = .ok coded) :
    ∃ more, coded = done ++ more ∧ more.map DeclaredField.member = members ∧
      (∀ f ∈ more, f ∈ all ∧ f.options.skip = false) ∧
      ((done.map DeclaredField.member).Nodup → (coded.map DeclaredField.member).Nodup) := by
  induction members generalizing done with
  | nil =>
    obtain rfl := Except.ok.inj hcoded
    exact ⟨[], by simp, rfl, nofun, id⟩
  | cons member members ih =>
    rw [listedFields] at hcoded
    cases hfind : findMember? all member with
    | none =>
      rw [hfind] at hcoded
      cases hcoded
    | some f =>
      rw [hfind] at hcoded
      dsimp only at hcoded
      split at hcoded
      · cases hcoded
      · rename_i hskip
        split at hcoded
        · cases hcoded
        · rename_i htwice
          obtain ⟨hf, hname⟩ := of_findMember? hfind
          obtain ⟨more, rfl, rfl, hmore, hnodup⟩ := ih hcoded
          refine ⟨f :: more, by simp, by rw [List.map_cons, hname], ?_, fun hdone => hnodup ?_⟩
          · intro g hg
            rcases List.mem_cons.1 hg with rfl | hg
            · exact ⟨hf, eq_false_of_ne_true hskip⟩
            · exact hmore g hg
          · rw [List.map_append, List.map_singleton, List.nodup_append]
            refine ⟨hdone, by simp, fun name hbefore other hother => ?_⟩
            obtain rfl := List.mem_singleton.1 hother
            rintro rfl
            exact htwice (any_member_iff.2 (hname ▸ hbefore))

/-- The rules find the coded fields. -/
theorem codes_of_codedFields {fields : Fields τ} {all coded : List (DeclaredField τ)}
    {listed : Option (List Member)} (hall : declaredFields fields = .ok all)
    (hcoded : codedFields all listed = .ok coded) : fields.Codes listed coded := by
  have hmem : ∀ {f}, f ∈ all ↔ fields.Declares f := mem_declaredFields_iff hall
  cases listed with
  | none =>
    obtain rfl := Except.ok.inj hcoded
    have hsub : (positions (all.filter fun field => !field.options.skip)).Sublist (positions all) :=
      List.filter_sublist.map _
    have hsorted : (positions all).Pairwise (· < ·) := by
      rw [positions_of_declaredFields hall]
      exact List.pairwise_lt_range
    refine ⟨fun f hf => ?_, fun f hf => ?_, ?_, hsorted.sublist hsub, fun f hf hskip => ?_⟩
    · exact hmem.1 (List.mem_filter.1 hf).1
    · simpa using (List.mem_filter.1 hf).2
    · exact (hsorted.sublist hsub).imp Nat.ne_of_lt
    · exact List.mem_filter.2 ⟨hmem.2 hf, by rw [hskip]; rfl⟩
  | some members =>
    obtain ⟨more, rfl, hmembers, hfields, hnodup⟩ :=
      exists_of_listedFields (mapError_eq_ok_iff.1 hcoded)
    have hdeclares : ∀ f ∈ coded, fields.Declares f := fun f hf => hmem.1 (hfields f hf).1
    refine ⟨hdeclares, fun f hf => (hfields f hf).2, ?_, hmembers⟩
    -- Two fields at one position would be the same field, listed twice.
    have hnames : coded.Pairwise fun f g => f.member ≠ g.member :=
      List.pairwise_map.1 (hnodup List.nodup_nil)
    refine List.pairwise_map.2 (hnames.imp_of_mem fun {f g} hf hg hne hposition => hne ?_)
    rw [(hdeclares f hf).eq_of_position (hdeclares g hg) hposition]

end Scale.Derive
