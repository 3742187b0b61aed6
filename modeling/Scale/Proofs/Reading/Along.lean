import Mathlib.Data.List.Flatten
import Mathlib.Data.List.Perm.Subperm
import Scale.Proofs.Reading.Typing
import Scale.Proofs.Value.Inventory

namespace Scale

variable {α β : Type}

namespace Source

/-- The other source is what is left once some bytes have been taken off. -/
def Reaches (source other : Source) : Prop :=
  ∃ taken rest, source.bytes = taken ++ rest ∧ other = source.withBytes rest

variable {source middle other : Source}

theorem Reaches.refl (source : Source) : source.Reaches source :=
  ⟨[], source.bytes, rfl, (withBytes_bytes source).symm⟩

theorem Reaches.trans (hmiddle : source.Reaches middle) (hother : middle.Reaches other) :
    source.Reaches other := by
  obtain ⟨taken, rest, hbytes, rfl⟩ := hmiddle
  obtain ⟨more, last, hmore, rfl⟩ := hother
  rw [bytes_withBytes] at hmore
  refine ⟨taken ++ more, last, ?_, withBytes_withBytes _ _ _⟩
  rw [hbytes, hmore, List.append_assoc]

theorem Reaches.length_le (hother : source.Reaches other) :
    other.bytes.length ≤ source.bytes.length := by
  obtain ⟨taken, rest, hbytes, rfl⟩ := hother
  rw [bytes_withBytes, hbytes, List.length_append]
  exact Nat.le_add_left _ _

end Source

namespace Reader

theorem TakesPrefix.reaches {step : Reader α} (hstep : TakesPrefix step) {source after : Source}
    {a : α} (hrun : step source = .ok a after) : source.Reaches after := by
  obtain ⟨taken, rest, hbytes, hrest⟩ := hstep source
  simp only [remainder, hrun] at hrest
  exact ⟨taken, rest, hbytes, hrest⟩

/-- Wherever the step succeeds, it has taken that many bytes or more. -/
def TakesAtLeast (amount : Nat) (step : Reader α) : Prop :=
  ∀ ⦃source after : Source⦄ ⦃a : α⦄, step source = .ok a after →
    after.bytes.length + amount ≤ source.bytes.length

theorem takesAtLeast_read (amount : Nat) : TakesAtLeast amount (read amount) := by
  intro source after bytes hrun
  by_cases hle : amount ≤ source.bytes.length
  · rw [read_of_le hle] at hrun
    rw [← (EStateM.Result.ok.inj hrun).2, Source.bytes_withBytes, List.length_drop]
    omega
  · rw [read_of_lt (Nat.not_le.1 hle)] at hrun
    cases hrun

theorem TakesAtLeast.bind {amount : Nat} {step : Reader α} {next : α → Reader β}
    (hstep : TakesAtLeast amount step) (hnext : ∀ a, TakesPrefix (next a)) :
    TakesAtLeast amount (step >>= next) := by
  intro source after b hrun
  obtain ⟨a, middle, hfirst, hsecond⟩ := Step.bind_eq_ok_iff.1 hrun
  have hle := (hnext a).length_le hsecond
  exact Nat.le_trans (Nat.add_le_add_right hle amount) (hstep hfirst)

theorem TakesAtLeast.map {amount : Nat} {step : Reader α} {f : α → β}
    (hstep : TakesAtLeast amount step) : TakesAtLeast amount (step >>= fun a => pure (f a)) :=
  hstep.bind fun a => TakesPrefix.pure (f a)

theorem takesAtLeast_takeCoded (coding : IntegerCoding α) :
    TakesAtLeast coding.repr.bytes coding.take := by
  refine (takesAtLeast_read coding.repr.bytes).map.bind fun n => ?_
  split
  · exact TakesPrefix.pure _
  · exact TakesPrefix.throw _

end Reader

/-- The least number of bytes that reading a value takes, what its components take aside. An optional
    truth value has its one byte in common with the truth value, if there is one. -/
def Schema.charge {ι ω : Type} : Schema ι ω → Value → Nat
  | unit, _ => 0
  | int t, _ => t.bytes
  | wide width, _ => width
  | option content, .present _ => if content.isBool then 0 else 1
  | array _ _, _ => 0
  | tuple _, _ => 0
  | pointer _, _ => 0
  | weak _ _, _ => 0
  | encoded _, _ => 0
  | record _ _ _, _ => 0
  | enumeration e, _ => e.repr.bytes
  | range r, _ => r.repr.bytes
  | ref _, _ => 0
  | _, _ => 1

namespace Definitions

open Reader

variable {ι : Type} (defs : Definitions ι Empty)

/-- Values are read one after the other on the way from one source to the other, perhaps with other
    bytes between them. -/
inductive ReadAlong : Source → List (Schema ι Empty × Value) → Source → Prop where
  | nil {source after} : source.Reaches after → ReadAlong source [] after
  | cons {source before middle after t w parts} : source.Reaches before →
    defs.read t before = .ok w middle → ReadAlong middle parts after →
    ReadAlong source ((t, w) :: parts) after

variable {defs} {source middle after : Source} {s t : Schema ι Empty} {v w : Value}
  {parts others : List (Schema ι Empty × Value)}

theorem ReadAlong.one (hread : defs.read t source = .ok w after) :
    ReadAlong defs source [(t, w)] after :=
  .cons (.refl source) hread (.nil (.refl after))

theorem ReadAlong.of_reaches (hmiddle : source.Reaches middle)
    (hparts : ReadAlong defs middle parts after) : ReadAlong defs source parts after := by
  cases hparts with
  | nil hafter => exact .nil (hmiddle.trans hafter)
  | cons hbefore hread hrest => exact .cons (hmiddle.trans hbefore) hread hrest

theorem ReadAlong.append (hparts : ReadAlong defs source parts middle)
    (hothers : ReadAlong defs middle others after) :
    ReadAlong defs source (parts ++ others) after := by
  induction hparts with
  | nil hmiddle => exact hothers.of_reaches hmiddle
  | cons hbefore hread _ ih => exact .cons hbefore hread (ih hothers)

/-- Values that are left out are bytes like any other ones. -/
theorem ReadAlong.sublist (hparts : ReadAlong defs source parts after)
    (hsublist : others.Sublist parts) : ReadAlong defs source others after := by
  induction hparts generalizing others with
  | nil hafter =>
    obtain rfl := List.sublist_nil.1 hsublist
    exact .nil hafter
  | @cons source before middle after t w parts hbefore hread _ ih =>
    cases hsublist with
    | cons _ hrest =>
      have hmiddle := (defs.takesPrefix_read t).reaches hread
      exact (ih hrest).of_reaches (hbefore.trans hmiddle)
    | cons_cons _ hrest => exact .cons hbefore hread (ih hrest)

theorem ReadAlong.exists_of_mem (hparts : ReadAlong defs source parts after)
    (hmem : (t, w) ∈ parts) :
    ∃ before middle, source.Reaches before ∧ defs.read t before = .ok w middle := by
  induction hparts with
  | nil _ => cases hmem
  | @cons source before middle _ u x _ hbefore hread _ ih =>
    rcases List.mem_cons.1 hmem with heq | hmem
    · obtain ⟨rfl, rfl⟩ := Prod.mk.inj heq
      exact ⟨before, middle, hbefore, hread⟩
    · obtain ⟨start, stop, hstart, hstop⟩ := ih hmem
      have hmiddle := (defs.takesPrefix_read u).reaches hread
      exact ⟨start, stop, (hbefore.trans hmiddle).trans hstart, hstop⟩

/-- What reading each of the values takes at least, reading all of them takes at least. -/
theorem ReadAlong.sum_le (amount : Schema ι Empty × Value → Nat)
    (hparts : ReadAlong defs source parts after)
    (hamount : ∀ part ∈ parts, ∀ before middle, defs.read part.1 before = .ok part.2 middle →
      middle.bytes.length + amount part ≤ before.bytes.length) :
    after.bytes.length + (parts.map amount).sum ≤ source.bytes.length := by
  induction hparts with
  | nil hafter => simpa using hafter.length_le
  | @cons source before middle after t w parts hbefore hread _ ih =>
    obtain ⟨hfirst, hrest⟩ := List.forall_mem_cons.1 hamount
    have hlater := ih hrest
    have htaken := hfirst before middle hread
    have hgap := hbefore.length_le
    rw [List.map_cons, List.sum_cons]
    omega

theorem readAlong_of_readMany {item : Reader α} (partsOf : α → List (Schema ι Empty × Value))
    (hitem : ∀ {source after a}, item source = .ok a after →
      ReadAlong defs source (partsOf a) after) {n : Nat} {items : List α}
    (hrun : readMany n item source = .ok items after) :
    ReadAlong defs source (items.flatMap partsOf) after := by
  induction n generalizing source items with
  | zero =>
    obtain ⟨rfl, rfl⟩ := Step.pure_eq_ok_iff.1 hrun
    exact .nil (.refl source)
  | succ n ih =>
    rw [readMany_succ] at hrun
    obtain ⟨first, middle, hfirst, hrest⟩ := Step.bind_eq_ok_iff.1 hrun
    obtain ⟨others, hothers, rfl⟩ := Step.map_eq_ok_iff.1 hrest
    rw [List.flatMap_cons]
    exact (hitem hfirst).append (ih hothers)

theorem readAlong_of_mapM {step : α → Reader Value}
    (partOf? : α → Value → Option (Schema ι Empty × Value))
    (hstep : ∀ {a source w after}, step a source = .ok w after →
      ReadAlong defs source (partOf? a w).toList after) {items : List α} {ws : List Value}
    (hrun : items.mapM step source = .ok ws after) :
    ReadAlong defs source ((items.zip ws).filterMap fun entry => partOf? entry.1 entry.2) after := by
  induction items generalizing source ws with
  | nil =>
    obtain ⟨rfl, rfl⟩ := Step.pure_eq_ok_iff.1 hrun
    exact .nil (.refl source)
  | cons a items ih =>
    rw [List.mapM_cons] at hrun
    obtain ⟨w, middle, hw, hrest⟩ := Step.bind_eq_ok_iff.1 hrun
    obtain ⟨others, hothers, rfl⟩ := Step.map_eq_ok_iff.1 hrest
    have hparts := (hstep hw).append (ih hothers)
    rw [List.zip_cons_cons]
    cases hpart : partOf? a w with
    | none =>
      rw [hpart, Option.toList_none, List.nil_append] at hparts
      simpa only [List.filterMap_cons, hpart] using hparts
    | some part =>
      rw [hpart, Option.toList_some, List.singleton_append] at hparts
      simpa only [List.filterMap_cons, hpart] using hparts

/-- A value that was read: some bytes were taken for itself and then its components were read, those of
    a set or a map not in their own order. -/
def SharesOut (defs : Definitions ι Empty) (s : Schema ι Empty) (source : Source) (v : Value)
    (after : Source) : Prop :=
  ∃ middle parts, source.Reaches middle ∧
    middle.bytes.length + s.charge v ≤ source.bytes.length ∧ ReadAlong defs middle parts after ∧
    parts.Perm (defs.components s v)

/-- A value without components. -/
theorem SharesOut.leaf {step : Reader Value} (hstep : TakesPrefix step)
    (hamount : TakesAtLeast (s.charge v) step) (hcomponents : defs.components s v = [])
    (hrun : step source = .ok v after) : SharesOut defs s source v after :=
  ⟨after, [], hstep.reaches hrun, hamount hrun, .nil (.refl after), by rw [hcomponents]⟩

/-- A value with one component that comes after a byte. -/
theorem SharesOut.tagged {step : Reader α} {a : α} (hstep : TakesPrefix step) (hleads : Leads step)
    (hrun : step source = .ok a middle) (hcharge : s.charge v = 1)
    (hcomponents : defs.components s v = [(t, w)]) (hread : defs.read t middle = .ok w after) :
    SharesOut defs s source v after :=
  ⟨middle, [(t, w)], hstep.reaches hrun, hcharge ▸ hleads hrun, .one hread, by rw [hcomponents]⟩

/-- A value that is its components, one after the other. -/
theorem SharesOut.all (hcharge : s.charge v = 0)
    (hparts : ReadAlong defs source (defs.components s v) after) : SharesOut defs s source v after :=
  ⟨source, _, .refl source, Nat.le_of_eq (by rw [hcharge, Nat.add_zero]), hparts, .refl _⟩

/-- A value with counted items, not all of which have got into it. -/
theorem SharesOut.counted {item : Reader α} (partsOf : α → List (Schema ι Empty × Value))
    {items : List α} {itemSize limit : Nat}
    (hitem : ∀ {source after a}, item source = .ok a after →
      ReadAlong defs source (partsOf a) after)
    (hrun : takeCounted itemSize limit item source = .ok items after) (hcharge : s.charge v = 1)
    (hcomponents : (defs.components s v).Subperm (items.flatMap partsOf)) :
    SharesOut defs s source v after := by
  obtain ⟨count, middle, hcount, hitems⟩ := Step.bind_eq_ok_iff.1 hrun
  obtain ⟨parts, hperm, hsublist⟩ := hcomponents
  exact ⟨middle, parts, (takesPrefix_congruence.takeItemCount itemSize limit).reaches hcount,
    hcharge ▸ leads_takeItemCount itemSize limit hcount,
    (readAlong_of_readMany partsOf hitem hitems).sublist hsublist, hperm⟩

/-- An entry of a map is its key and then its value. -/
def entryParts (key value : Schema ι Empty) : Value → List (Schema ι Empty × Value)
  | .list [k, w] => [(key, k), (value, w)]
  | _ => []

theorem sharesOut_of_map {keys : Keying} {key value : Schema ι Empty}
    (hrun : defs.read (.map keys key value) source = .ok v after) :
    SharesOut defs (.map keys key value) source v after := by
  rw [read_map] at hrun
  obtain ⟨entries, hentries, rfl⟩ := Step.map_eq_ok_iff.1 hrun
  have htable := tabulates_mapOfEntries keys.order entries
  refine SharesOut.counted (fun entry => entryParts key value (Value.ofEntry entry))
    (fun {start stop entry} hentry => ?_) hentries rfl ?_
  · obtain ⟨k, middle, hk, hrest⟩ := Step.bind_eq_ok_iff.1 hentry
    obtain ⟨w, hw, rfl⟩ := Step.map_eq_ok_iff.1 hrest
    exact (ReadAlong.one hk).append (.one hw)
  · obtain ⟨kept, hperm, hsublist⟩ := htable.ascending.nodup.subperm htable.subset
    rw [← List.flatMap_map]
    exact ⟨_, hperm.flatMap_right _, hsublist.flatMap _⟩

/-- A coded field with its value. -/
def fieldPart? (fields : List (Schema ι Empty)) (i : Nat) (w : Value) :
    Option (Schema ι Empty × Value) :=
  fields[i]?.map (·, w)

theorem components_place (labels : Labels) {selection : Selection} {fields : List (Schema ι Empty)}
    {vs : List Value} (hnodup : selection.order.Nodup)
    (hrange : ∀ i ∈ selection.order, i < fields.length)
    (hlength : vs.length = selection.order.length) :
    defs.components (.record labels selection fields)
      (.list (Value.place selection.order vs (selection.blank fields.length))) =
        (selection.order.zip vs).filterMap fun entry => fieldPart? fields entry.1 entry.2 := by
  have horder : selection.order = (selection.order.zip vs).map Prod.fst :=
    (List.map_fst_zip (Nat.le_of_eq hlength.symm)).symm
  rw [components, horder, List.filterMap_map, ← horder]
  refine List.filterMap_congr fun entry hentry => ?_
  simp only [Function.comp_apply, selection.getElem?_place_blank _ hnodup hrange hentry,
    fieldPart?]
  cases fields[entry.1]? <;> rfl

/-- The coded fields of a record are read in coding order. -/
theorem sharesOut_of_record {labels : Labels} {selection : Selection} {fields : List (Schema ι Empty)}
    (hnodup : selection.order.Nodup) (hrange : ∀ i ∈ selection.order, i < fields.length)
    (hrun : defs.read (.record labels selection fields) source = .ok v after) :
    SharesOut defs (.record labels selection fields) source v after := by
  rw [read_record] at hrun
  obtain ⟨vs, hvs, rfl⟩ := Step.map_eq_ok_iff.1 hrun
  have hparts : ReadAlong defs source
      ((selection.order.zip vs).filterMap fun entry => fieldPart? fields entry.1 entry.2) after := by
    refine readAlong_of_mapM (fieldPart? fields) (fun {i start w stop} hread => ?_) hvs
    rw [readAt] at hread
    cases hfield : fields[i]? with
    | none =>
      rw [hfield] at hread
      cases hread
    | some field =>
      rw [hfield] at hread
      rw [fieldPart?, hfield]
      exact .one hread
  rw [← components_place labels hnodup hrange (Step.length_of_mapM hvs)] at hparts
  exact .all rfl hparts

/-- Reading a value that is no optional truth value takes bytes for the value itself and reads its
    components. -/
theorem sharesOut_of_read (hadmissible : s.Admissible) (hunpacked : s ≠ .option .bool)
    (hrun : defs.read s source = .ok v after) : SharesOut defs s source v after := by
  have htakes := defs.takesPrefix_read s
  cases s with
  | unit =>
    rw [← readWith_read] at hrun
    obtain ⟨rfl, rfl⟩ := Step.pure_eq_ok_iff.1 hrun
    exact .all rfl (.nil (.refl source))
  | bool =>
    exact .leaf htakes (readWith_read defs .bool ▸ leads_takeBool.map) rfl hrun
  | int t =>
    exact .leaf htakes (readWith_read defs (.int t) ▸ (takesAtLeast_read t.bytes).map.map) rfl hrun
  | wide width =>
    exact .leaf htakes (readWith_read defs (.wide width) ▸ (takesAtLeast_read width).map.map) rfl
      hrun
  | compact t =>
    exact .leaf htakes (readWith_read defs (.compact t) ▸ (leads_takeCompact t).map) rfl hrun
  | text =>
    exact .leaf htakes (readWith_read defs .text ▸ leads_takeText.map) rfl hrun
  | blob =>
    exact .leaf htakes (readWith_read defs .blob ▸ leads_takeCountedSpan.map) rfl hrun
  | bits =>
    exact .leaf htakes (readWith_read defs .bits ▸ leads_takeBits.map) rfl hrun
  | option content =>
    have hbool : content.isBool = false := by
      cases content with
      | bool => exact absurd rfl hunpacked
      | _ => rfl
    rw [read_option defs hbool] at hrun
    obtain ⟨there, middle, hthere, hrest⟩ := Step.bind_eq_ok_iff.1 hrun
    cases there with
    | true =>
      obtain ⟨w, hw, rfl⟩ := Step.map_eq_ok_iff.1 hrest
      have hcharge : (Schema.option content).charge (.present w) = 1 := by
        rw [Schema.charge, hbool]
        rfl
      exact .tagged takesPrefix_congruence.takeBool leads_takeBool hthere hcharge rfl hw
    | false =>
      obtain ⟨rfl, rfl⟩ := Step.pure_eq_ok_iff.1 hrest
      exact ⟨middle, [], takesPrefix_congruence.takeBool.reaches hthere, leads_takeBool hthere,
        .nil (.refl middle), .refl _⟩
  | result success failure =>
    rw [read_result] at hrun
    obtain ⟨tag, middle, htag, hrest⟩ := Step.bind_eq_ok_iff.1 hrun
    rcases tag with _ | tag
    · obtain ⟨w, hw, rfl⟩ := Step.map_eq_ok_iff.1 hrest
      exact .tagged (takesPrefix_congruence.takeTag 2) (leads_takeTag 2) htag rfl rfl hw
    · obtain ⟨w, hw, rfl⟩ := Step.map_eq_ok_iff.1 hrest
      exact .tagged (takesPrefix_congruence.takeTag 2) (leads_takeTag 2) htag rfl rfl hw
  | sequence kind item =>
    rw [read_sequence] at hrun
    obtain ⟨vs, hvs, rfl⟩ := Step.map_eq_ok_iff.1 hrun
    refine .counted (fun w => [(item, w)]) ReadAlong.one hvs rfl ?_
    rw [← List.map_eq_flatMap]
    exact .refl _
  | set keys item =>
    rw [read_set] at hrun
    obtain ⟨vs, hvs, rfl⟩ := Step.map_eq_ok_iff.1 hrun
    have htable := tabulates_setOfList keys.order vs
    obtain ⟨kept, hperm, hsublist⟩ := htable.ascending.nodup.subperm htable.subset
    refine .counted (fun w => [(item, w)]) ReadAlong.one hvs rfl ?_
    rw [← List.map_eq_flatMap]
    exact ⟨_, hperm.map _, hsublist.map _⟩
  | map keys key value => exact sharesOut_of_map hrun
  | array count item =>
    rw [read_array] at hrun
    obtain ⟨vs, hvs, rfl⟩ := Step.map_eq_ok_iff.1 hrun
    have hparts := readAlong_of_readMany (fun w => [(item, w)]) ReadAlong.one hvs
    rw [← List.map_eq_flatMap] at hparts
    exact .all rfl hparts
  | tuple items =>
    rw [read_tuple] at hrun
    obtain ⟨vs, hvs, rfl⟩ := Step.map_eq_ok_iff.1 hrun
    have hparts := readAlong_of_mapM (fun item w => some (item, w)) ReadAlong.one hvs
    rw [List.filterMap_some] at hparts
    exact .all rfl hparts
  | pointer pointee =>
    rw [read_pointer] at hrun
    exact .all rfl (.one hrun)
  | weak writeOnly _ => exact writeOnly.elim
  | encoded writeOnly => exact writeOnly.elim
  | record labels selection fields => exact sharesOut_of_record hadmissible.1 hadmissible.2 hrun
  | sum names alternatives =>
    rw [read_sum] at hrun
    obtain ⟨tag, middle, htag, hrest⟩ := Step.bind_eq_ok_iff.1 hrun
    obtain ⟨w, hw, rfl⟩ := Step.map_eq_ok_iff.1 hrest
    rw [readAt] at hw
    cases hget : alternatives[tag]? with
    | none =>
      rw [hget] at hw
      cases hw
    | some alternative =>
      rw [hget] at hw
      have hcomponents : defs.components (.sum names alternatives) (.tagged tag w) =
          [(alternative, w)] := by
        rw [components, hget]
        rfl
      exact .tagged (takesPrefix_congruence.takeTag _) (leads_takeTag _) htag rfl hcomponents hw
  | enumeration e =>
    exact .leaf htakes (readWith_read defs (.enumeration e) ▸ (takesAtLeast_takeCoded e.coding).map)
      rfl hrun
  | range r =>
    exact .leaf htakes (readWith_read defs (.range r) ▸ (takesAtLeast_takeCoded r.coding).map)
      rfl hrun
  | ref name =>
    rw [read_ref] at hrun
    exact .all rfl (.one hrun)

end Definitions

end Scale
