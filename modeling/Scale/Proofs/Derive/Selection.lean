import Mathlib.Data.List.Induction
import Mathlib.Data.List.Nodup
import Mathlib.Data.List.Perm.Subperm
import Scale.Proofs.Derive.Plans

namespace Scale.Derive

variable {τ : Type} {all done coded : List (DeclaredField τ)} {f : DeclaredField τ}
  {member : Member} {order good rest : List Member} {e : DeriveError}

/-- A list of fields that are declared and not skipped, none of them twice. -/
structure Selectable (all : List (DeclaredField τ)) (order : List Member) : Prop where
  nodup : order.Nodup
  declared : ∀ member ∈ order, ∃ f ∈ all, f.member = member ∧ f.options.skip = false

/-- What is wrong with an entry that others stand before. An entry that is not declared is neither
    skipped nor listed twice, and a skipped one is not listed twice. -/
inductive Offence (all : List (DeclaredField τ)) (before : List Member) (member : Member) :
    DeriveError → Prop where
  | unknown : (∀ f ∈ all, f.member ≠ member) → Offence all before member .noSuchField
  | skipped {f : DeclaredField τ} : f ∈ all → f.member = member → f.options.skip = true →
    Offence all before member .fieldSkipped
  | twice {f : DeclaredField τ} : f ∈ all → f.member = member → f.options.skip = false →
    member ∈ before → Offence all before member .fieldListedTwice

/-- An entry is at fault, or it goes on from there. -/
theorem exists_offence_or_declared (all : List (DeclaredField τ)) (before : List Member)
    (member : Member) : (∃ e, Offence all before member e) ∨
      member ∉ before ∧ ∃ f ∈ all, f.member = member ∧ f.options.skip = false := by
  by_cases hknown : ∃ f ∈ all, f.member = member
  · obtain ⟨f, hf, hname⟩ := hknown
    cases hskip : f.options.skip with
    | true => exact .inl ⟨_, .skipped hf hname hskip⟩
    | false =>
      by_cases hbefore : member ∈ before
      · exact .inl ⟨_, .twice hf hname hskip hbefore⟩
      · exact .inr ⟨hbefore, f, hf, hname, hskip⟩
  · exact .inl ⟨_, .unknown fun f hf hname => hknown ⟨f, hf, hname⟩⟩

/-- A list can be selected, or there is a first entry at fault. -/
theorem selectable_or_offence (all : List (DeclaredField τ)) (order : List Member) :
    Selectable all order ∨ ∃ (i : Nat) (member : Member) (e : DeriveError),
      order[i]? = some member ∧ Selectable all (order.take i) ∧
        Offence all (order.take i) member e := by
  -- From the end, so that a first fault stays the first one when an entry is added.
  induction order using List.reverseRecOn with
  | nil => exact .inl ⟨List.nodup_nil, nofun⟩
  | append_singleton front last ih =>
    obtain hfront | ⟨i, member, e, hentry, hbefore, hoffence⟩ := ih
    · obtain ⟨e, hoffence⟩ | ⟨hnew, hdeclared⟩ := exists_offence_or_declared all front last
      · refine .inr ⟨front.length, last, e, by simp, ?_, ?_⟩ <;> rwa [List.take_left]
      · refine .inl ⟨?_, fun member hmember => ?_⟩
        · exact List.nodup_append.2 ⟨hfront.nodup, List.nodup_singleton last, by
            rintro a ha _ hlast rfl
            exact hnew (List.mem_singleton.1 hlast ▸ ha)⟩
        · rcases List.mem_append.1 hmember with hmember | hmember
          · exact hfront.declared member hmember
          · obtain rfl := List.mem_singleton.1 hmember
            exact hdeclared
    · have hlt : i < front.length := (List.getElem?_eq_some_iff.1 hentry).1
      refine .inr ⟨i, member, e, ?_, ?_, ?_⟩
      · rw [List.getElem?_append_left hlt, hentry]
      · rwa [List.take_append_of_le_length (Nat.le_of_lt hlt)]
      · rwa [List.take_append_of_le_length (Nat.le_of_lt hlt)]

section

variable (hdistinct : (all.map DeclaredField.member).Nodup)
include hdistinct

theorem findMember?_eq_some_iff : findMember? all member = some f ↔ f ∈ all ∧ f.member = member := by
  refine ⟨of_findMember?, ?_⟩
  rintro ⟨hf, rfl⟩
  cases hfind : findMember? all f.member with
  | none =>
    have hnot := List.find?_eq_none.1 hfind f hf
    exact absurd (beq_self_eq_true f.member) hnot
  | some g =>
    obtain ⟨hg, hname⟩ := of_findMember? hfind
    rw [List.inj_on_of_nodup_map hdistinct hg hf hname]

/-- Declared fields are known by what they are called. -/
theorem filterMap_findMember? (hcoded : ∀ f ∈ coded, f ∈ all) :
    (coded.map DeclaredField.member).filterMap (findMember? all) = coded := by
  rw [List.filterMap_map]
  refine (List.filterMap_congr fun f hf => ?_).trans List.filterMap_some
  exact (findMember?_eq_some_iff hdistinct).2 ⟨hcoded f hf, rfl⟩

theorem listedFields_of_offence (hoffence : Offence all (done.map DeclaredField.member) member e) :
    listedFields all done (member :: rest) = .error (done.length, e) := by
  rw [listedFields]
  cases hoffence with
  | unknown hunknown =>
    have hfind : findMember? all member = none := by
      refine Option.eq_none_iff_forall_ne_some.2 fun f hfind => ?_
      obtain ⟨hf, hname⟩ := of_findMember? hfind
      exact hunknown f hf hname
    rw [hfind]
  | skipped hf hname hskip =>
    rw [(findMember?_eq_some_iff hdistinct).2 ⟨hf, hname⟩]
    exact if_pos hskip
  | twice hf hname hskip hbefore =>
    rw [(findMember?_eq_some_iff hdistinct).2 ⟨hf, hname⟩]
    dsimp only
    rw [if_neg (Bool.eq_false_iff.1 hskip), if_pos (any_member_iff.2 hbefore)]

theorem listedFields_of_declared (hf : f ∈ all) (hskip : f.options.skip = false)
    (hnew : f.member ∉ done.map DeclaredField.member) :
    listedFields all done (f.member :: rest) = listedFields all (done ++ [f]) rest := by
  rw [listedFields, (findMember?_eq_some_iff hdistinct).2 ⟨hf, rfl⟩]
  dsimp only
  rw [if_neg (Bool.eq_false_iff.1 hskip), if_neg (mt any_member_iff.1 hnew)]

/-- The entries that can be selected are selected one by one, and the others follow. -/
theorem exists_listedFields_append (done : List (DeclaredField τ))
    (hgood : Selectable all (done.map DeclaredField.member ++ good)) :
    ∃ more, more.map DeclaredField.member = good ∧ (∀ f ∈ more, f ∈ all) ∧
      ∀ rest, listedFields all done (good ++ rest) = listedFields all (done ++ more) rest := by
  induction good generalizing done with
  | nil => exact ⟨[], rfl, nofun, fun rest => by rw [List.append_nil, List.nil_append]⟩
  | cons member good ih =>
    obtain ⟨f, hf, rfl, hskip⟩ := hgood.declared member (by simp)
    have hnew : f.member ∉ done.map DeclaredField.member := by
      intro hbefore
      exact (List.nodup_append.1 hgood.nodup).2.2 _ hbefore _ List.mem_cons_self rfl
    have hnext : Selectable all ((done ++ [f]).map DeclaredField.member ++ good) := by
      rwa [List.map_append, List.map_singleton, List.append_assoc, List.singleton_append]
    obtain ⟨more, rfl, hmore, hruns⟩ := ih _ hnext
    refine ⟨f :: more, rfl, List.forall_mem_cons.2 ⟨hf, hmore⟩, fun rest => ?_⟩
    rw [List.cons_append, listedFields_of_declared hdistinct hf hskip hnew, hruns,
      List.append_assoc, List.singleton_append]

/-- A list that can be selected selects the fields that it names. -/
theorem exists_listedFields_eq_ok (horder : Selectable all order) :
    ∃ coded, listedFields all [] order = .ok coded ∧
      coded.map DeclaredField.member = order ∧ ∀ f ∈ coded, f ∈ all := by
  obtain ⟨coded, hmembers, hcoded, hruns⟩ := exists_listedFields_append hdistinct [] horder
  have hrun := hruns []
  rw [List.append_nil] at hrun
  exact ⟨coded, hrun, hmembers, hcoded⟩

theorem listedFields_eq_error {i : Nat} (hentry : order[i]? = some member)
    (hbefore : Selectable all (order.take i)) (hoffence : Offence all (order.take i) member e) :
    listedFields all [] order = .error (i, e) := by
  obtain ⟨hlt, hmember⟩ := List.getElem?_eq_some_iff.1 hentry
  have hsplit : order.take i ++ member :: order.drop (i + 1) = order := by
    rw [← hmember, List.getElem_cons_drop, List.take_append_drop]
  obtain ⟨more, hmembers, _, hruns⟩ := exists_listedFields_append hdistinct [] hbefore
  have hlength : more.length = i := by
    rw [← List.length_map DeclaredField.member, hmembers, List.length_take_of_le (Nat.le_of_lt hlt)]
  rw [← hmembers] at hoffence
  rw [← hsplit, hruns, List.nil_append, listedFields_of_offence hdistinct hoffence, hlength]

theorem listedFields_eq_ok_iff : listedFields all [] order = .ok coded ↔
    Selectable all order ∧ coded.map DeclaredField.member = order ∧ ∀ f ∈ coded, f ∈ all := by
  constructor
  · intro hrun
    obtain horder | ⟨i, member, e, hentry, hbefore, hoffence⟩ := selectable_or_offence all order
    · obtain ⟨selected, hselected, hfields⟩ := exists_listedFields_eq_ok hdistinct horder
      obtain rfl := Except.ok.inj (hrun.symm.trans hselected)
      exact ⟨horder, hfields⟩
    · rw [listedFields_eq_error hdistinct hentry hbefore hoffence] at hrun
      cases hrun
  · rintro ⟨horder, hmembers, hcoded⟩
    obtain ⟨selected, hselected, hnames, hfields⟩ := exists_listedFields_eq_ok hdistinct horder
    -- Both lists of fields are what the look-up finds under the same names.
    rw [hselected, ← filterMap_findMember? hdistinct hfields, hnames, ← hmembers,
      filterMap_findMember? hdistinct hcoded]

/-- The entry that is reported is the first one at fault. -/
theorem listedFields_eq_error_iff {i : Nat} : listedFields all [] order = .error (i, e) ↔
    ∃ member, order[i]? = some member ∧ Selectable all (order.take i) ∧
      Offence all (order.take i) member e := by
  constructor
  · intro hrun
    obtain horder | ⟨j, member, e', hentry, hbefore, hoffence⟩ := selectable_or_offence all order
    · obtain ⟨selected, hselected, _⟩ := exists_listedFields_eq_ok hdistinct horder
      rw [hselected] at hrun
      cases hrun
    · rw [listedFields_eq_error hdistinct hentry hbefore hoffence] at hrun
      obtain ⟨rfl, rfl⟩ := Prod.mk.inj (Except.error.inj hrun)
      exact ⟨member, hentry, hbefore, hoffence⟩
  · rintro ⟨member, hentry, hbefore, hoffence⟩
    exact listedFields_eq_error hdistinct hentry hbefore hoffence

theorem codedFields_eq_ok_iff : codedFields all (some order) = .ok coded ↔
    Selectable all order ∧ coded.map DeclaredField.member = order ∧ ∀ f ∈ coded, f ∈ all := by
  rw [← listedFields_eq_ok_iff hdistinct, codedFields, mapError_eq_ok_iff]

/-- With a list or without one, no field is coded twice. -/
theorem nodup_of_codedFields {listed : Option (List Member)}
    (hcoded : codedFields all listed = .ok coded) :
    (coded.map DeclaredField.member).Nodup ∧ ∀ f ∈ coded, f ∈ all := by
  cases listed with
  | none =>
    obtain rfl := Except.ok.inj hcoded
    exact ⟨hdistinct.sublist (List.filter_sublist.map _), fun f hf => List.mem_of_mem_filter hf⟩
  | some order =>
    obtain ⟨horder, rfl, hfields⟩ := (codedFields_eq_ok_iff hdistinct).1 hcoded
    exact ⟨horder.nodup, hfields⟩

/-- So there are as many coded fields as declared ones just when all of them are coded. -/
theorem length_eq_iff_perm {listed : Option (List Member)}
    (hcoded : codedFields all listed = .ok coded) : coded.length = all.length ↔ coded.Perm all := by
  obtain ⟨hmembers, hfields⟩ := nodup_of_codedFields hdistinct hcoded
  have hsubperm : coded.Subperm all := (List.Nodup.of_map _ hmembers).subperm hfields
  constructor
  · intro hlength
    exact hsubperm.perm_of_length_le (Nat.le_of_eq hlength.symm)
  · intro hperm
    exact hperm.length_eq

/-- The decoder of a record has no way of its own to read over one just when all fields are coded. -/
theorem inPlace_of_decodePlan {item : Item τ} {fields : Fields τ} {decoder : DecodePlan τ}
    (hbody : item.body = .record fields) (hall : declaredFields fields = .ok all)
    (hdecode : decodePlan item = .ok decoder) :
    ∃ options coded product inPlace, typeOptions item.attributes = .ok options ∧
      codedFields all options.fields = .ok coded ∧ decoder = .record product inPlace ∧
      product.steps = coded ∧ (inPlace = none ↔ coded.Perm all) ∧
      ∀ steps, inPlace = some steps → steps = coded := by
  obtain ⟨options, all', coded, hoptions, hall', hcoded, rfl⟩ := exists_of_decodePlan hbody hdecode
  obtain rfl := Except.ok.inj (hall.symm.trans hall')
  refine ⟨options, coded, _, _, hoptions, hcoded, rfl, rfl, ?_⟩
  rw [← length_eq_iff_perm hdistinct hcoded]
  by_cases hlength : coded.length = all.length
  · rw [if_pos hlength]
    exact ⟨iff_of_true rfl hlength, nofun⟩
  · rw [if_neg hlength]
    exact ⟨iff_of_false nofun hlength, fun steps hsteps => (Option.some.inj hsteps).symm⟩

/-- Without a list the coded fields are those that are not skipped, as declared. With a list they are the
    fields that it names, as listed, if these are declared, not skipped and all different; or else the
    first entry for which this does not hold is reported with what is wrong with it. No field is coded
    twice, so that there are as many coded fields as declared ones just when all are coded, and just then
    the decoder of a record does without a way to read over it in place. -/
theorem codedFields_select :
    (∃ coded, codedFields all none = .ok coded ∧ coded.Sublist all ∧
      ∀ f ∈ all, f ∈ coded ↔ f.options.skip = false) ∧
    (∀ order coded, codedFields all (some order) = .ok coded ↔
      Selectable all order ∧ coded.map DeclaredField.member = order ∧ ∀ f ∈ coded, f ∈ all) ∧
    (∀ order, (∃ coded, codedFields all (some order) = .ok coded) ↔ Selectable all order) ∧
    (∀ order, codedFields all (some order) = (listedFields all [] order).mapError Prod.snd ∧
      ∀ i e, listedFields all [] order = .error (i, e) ↔ ∃ member, order[i]? = some member ∧
        Selectable all (order.take i) ∧ Offence all (order.take i) member e) ∧
    (∀ listed coded, codedFields all listed = .ok coded →
      (coded.map DeclaredField.member).Nodup ∧ (coded.length = all.length ↔ coded.Perm all)) ∧
    ∀ (item : Item τ) (fields : Fields τ) (decoder : DecodePlan τ), item.body = .record fields →
      declaredFields fields = .ok all → decodePlan item = .ok decoder →
      ∃ options coded product inPlace, typeOptions item.attributes = .ok options ∧
        codedFields all options.fields = .ok coded ∧ decoder = .record product inPlace ∧
        product.steps = coded ∧ (inPlace = none ↔ coded.Perm all) ∧
        ∀ steps, inPlace = some steps → steps = coded := by
  refine ⟨⟨_, rfl, List.filter_sublist, fun f hf => ?_⟩,
    fun order coded => codedFields_eq_ok_iff hdistinct, fun order => ?_,
    fun order => ⟨rfl, fun i e => listedFields_eq_error_iff hdistinct⟩,
    fun listed coded hcoded => ⟨(nodup_of_codedFields hdistinct hcoded).1,
      length_eq_iff_perm hdistinct hcoded⟩,
    fun item fields decoder => inPlace_of_decodePlan hdistinct⟩
  · rw [List.mem_filter, Bool.not_eq_true']
    exact and_iff_right hf
  · simp only [codedFields_eq_ok_iff hdistinct]
    constructor
    · rintro ⟨coded, horder, _⟩
      exact horder
    · intro horder
      obtain ⟨coded, hrun, _⟩ := exists_listedFields_eq_ok hdistinct horder
      exact ⟨coded, (listedFields_eq_ok_iff hdistinct).1 hrun⟩

end

/-- A plain field, a skipped one and a compact one. -/
def threeFields : List (DeclaredField Unit) :=
  [⟨0, .name "a", (), ⟨false, false⟩⟩, ⟨1, .name "b", (), ⟨true, false⟩⟩,
    ⟨2, .name "c", (), ⟨false, true⟩⟩]

/-- The two fields that can be listed, the other way round, and a list with two entries at fault. -/
theorem codedFields_select_threeFields :
    (threeFields.map DeclaredField.member).Nodup ∧
    codedFields threeFields (some [.name "c", .name "a"]) =
      .ok [⟨2, .name "c", (), ⟨false, true⟩⟩, ⟨0, .name "a", (), ⟨false, false⟩⟩] ∧
    listedFields threeFields [] [.name "a", .name "a", .name "b"] = .error (1, .fieldListedTwice) := by
  have hdistinct : (threeFields.map DeclaredField.member).Nodup := by decide
  obtain ⟨_, hselects, _, hreports, _⟩ := codedFields_select hdistinct
  refine ⟨hdistinct, ?_, ?_⟩
  · refine (hselects _ _).2 ⟨⟨by decide, ?_⟩, rfl, by decide⟩
    simp [threeFields]
  · refine ((hreports _).2 1 _).2 ⟨.name "a", rfl, ⟨by decide, ?_⟩, ?_⟩
    · simp [threeFields]
    · exact .twice (f := ⟨0, .name "a", (), ⟨false, false⟩⟩) (by decide) rfl rfl (by decide)

end Scale.Derive
