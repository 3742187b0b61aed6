import Scale.Proofs.Compact.JamGrammar
import Scale.Proofs.Reading.Leads
import Scale.Proofs.Schema.Typing

namespace Scale

namespace Reader

variable {α β : Type}

theorem TakesPrefix.length_le_of_error {step : Reader α} (hstep : TakesPrefix step)
    {source after : Source} {e : DecodeError} (hrun : step source = .error e after) :
    after.bytes.length ≤ source.bytes.length := by
  obtain ⟨taken, rest, hbytes, hrest⟩ := hstep source
  simp only [remainder, hrun] at hrest
  rw [hrest, Source.bytes_withBytes, hbytes, List.length_append]
  omega

/-- Wherever the step fails, and not for lack of data, it has taken at least one byte. -/
def RefusesLate (step : Reader α) : Prop :=
  ∀ ⦃source after : Source⦄ ⦃e : DecodeError⦄, step source = .error e after →
    e ≠ .notEnoughData → after.bytes.length < source.bytes.length

theorem RefusesLate.pure (a : α) : RefusesLate (Pure.pure a : Reader α) := by
  intro source after e hrun
  cases hrun

theorem RefusesLate.of_demands {step : Reader α} {amount used : Nat} {value : List UInt8 → α}
    (hstep : Demands step amount used value) : RefusesLate step := by
  intro source after e hrun hdata
  by_cases hle : amount ≤ source.bytes.length
  · rw [hstep.ok hle] at hrun
    cases hrun
  · rw [hstep.error (Nat.not_le.1 hle)] at hrun
    cases hrun
    exact absurd rfl hdata

theorem RefusesLate.bind {step : Reader α} {next : α → Reader β} (hstep : RefusesLate step)
    (htakes : TakesPrefix step) (hnext : ∀ a, RefusesLate (next a)) :
    RefusesLate (step >>= next) := by
  intro source after e hrun hdata
  cases hfirst : step source with
  | error e' middle =>
    rw [Step.bind_of_error hfirst] at hrun
    cases hrun
    exact hstep hfirst hdata
  | ok a middle =>
    rw [Step.bind_of_ok hfirst] at hrun
    exact Nat.lt_of_lt_of_le (hnext a hrun hdata) (htakes.length_le hfirst)

/-- Once a byte has been taken, whatever is refused is refused late. -/
theorem RefusesLate.bind_of_leads {step : Reader α} {next : α → Reader β}
    (hstep : RefusesLate step) (hleads : Leads step) (hnext : ∀ a, TakesPrefix (next a)) :
    RefusesLate (step >>= next) := by
  intro source after e hrun hdata
  cases hfirst : step source with
  | error e' middle =>
    rw [Step.bind_of_error hfirst] at hrun
    cases hrun
    exact hstep hfirst hdata
  | ok a middle =>
    rw [Step.bind_of_ok hfirst] at hrun
    exact Nat.lt_of_le_of_lt ((hnext a).length_le_of_error hrun) (hleads hfirst)

theorem RefusesLate.map {step : Reader α} {f : α → β} (hstep : RefusesLate step) :
    RefusesLate (step >>= fun a => Pure.pure (f a)) := by
  intro source after e hrun hdata
  cases hfirst : step source with
  | error e' middle =>
    rw [Step.bind_of_error hfirst] at hrun
    cases hrun
    exact hstep hfirst hdata
  | ok a middle =>
    rw [Step.bind_of_ok hfirst] at hrun
    cases hrun

theorem refusesLate_takeByte : RefusesLate takeByte :=
  .of_demands demands_takeByte

/-- A redundant form is found out after it has been taken. -/
theorem refusesLate_takeDigits : RefusesLate takeDigits := by
  intro source after e hrun hdata
  change source.scheme.take source = .error e after at hrun
  cases hscheme : source.scheme with
  | classic =>
    rw [hscheme] at hrun
    change Classic.take source = .error e after at hrun
    obtain ⟨first, tail, hbytes, hlong⟩ | hshort := Classic.complete_or_truncated source
    · have hpos := (Classic.Form.ofHeader first).length_pos
      rw [Classic.take_of_form hbytes hlong] at hrun
      split at hrun
      · cases hrun
      · rw [← (EStateM.Result.error.inj hrun).2, Source.bytes_withBytes, List.length_drop]
        omega
    · obtain ⟨rest, hlack⟩ := Classic.take_eq_notEnoughData_iff.2 hshort
      rw [hrun] at hlack
      exact absurd (EStateM.Result.error.inj hlack).1 hdata
  | jam =>
    rw [hscheme] at hrun
    change Jam.take source = .error e after at hrun
    cases hbytes : source.bytes with
    | nil =>
      rw [Jam.take_of_nil hbytes] at hrun
      exact absurd (EStateM.Result.error.inj hrun).1.symm hdata
    | cons first tail =>
      by_cases hlong : Jam.leadingOnes first ≤ tail.length
      · rw [Jam.take_of_form hbytes hlong] at hrun
        split at hrun
        · cases hrun
        · rw [← (EStateM.Result.error.inj hrun).2, Source.bytes_withBytes, List.length_drop,
            List.length_cons]
          omega
      · rw [Jam.take_of_truncated hbytes (Nat.not_le.1 hlong)] at hrun
        exact absurd (EStateM.Result.error.inj hrun).1.symm hdata

theorem leads_takeDigits : Leads takeDigits := by
  intro source after digits hrun
  obtain ⟨n, rest, _, _, hbytes, rfl⟩ := bytes_of_takeDigits hrun
  have hpos := source.scheme.length_spelling_pos n
  rw [Source.bytes_withBytes, hbytes, List.length_append]
  omega

theorem refusesLate_takeCompact (t : IntegerType) : RefusesLate (takeCompact t) :=
  refusesLate_takeDigits.bind_of_leads leads_takeDigits fun _ =>
    takesPrefix_congruence.ofExcept _

theorem refusesLate_takeCount (limit : Nat) : RefusesLate (takeCount limit) := by
  refine (refusesLate_takeCompact _).bind_of_leads (leads_takeCompact _) fun count => ?_
  split
  · exact (TakesPrefix.throw _).bind fun _ => TakesPrefix.pure _
  · exact (TakesPrefix.pure _).bind fun _ => TakesPrefix.pure _

theorem refusesLate_takeItemCount (itemSize limit : Nat) :
    RefusesLate (takeItemCount itemSize limit) := by
  rw [takeItemCount_eq]
  refine (refusesLate_takeCount _).bind_of_leads (leads_takeCount _) fun count => ?_
  split
  · exact (takesPrefix_congruence.need count).bind fun _ => TakesPrefix.pure _
  · exact TakesPrefix.pure _

theorem refusesLate_takeCountedSpan : RefusesLate takeCountedSpan := by
  refine (refusesLate_takeCount _).bind_of_leads (leads_takeCount _) fun count => ?_
  rw [readSpan_eq_read]
  exact takesPrefix_congruence.read count

theorem refusesLate_takeText : RefusesLate takeText := by
  refine refusesLate_takeCountedSpan.bind_of_leads leads_takeCountedSpan fun bytes => ?_
  split
  · exact TakesPrefix.pure _
  · exact TakesPrefix.throw _

theorem refusesLate_takeBits : RefusesLate BitSeq.take := by
  rw [BitSeq.take_eq]
  refine (refusesLate_takeCount _).bind_of_leads (leads_takeCount _) fun count =>
    (takesPrefix_congruence.need _).bind fun _ =>
      (takesPrefix_congruence.read _).bind fun bytes => ?_
  split
  · exact TakesPrefix.pure _
  · exact TakesPrefix.throw _

theorem refusesLate_takeBool : RefusesLate takeBool := by
  refine refusesLate_takeByte.bind_of_leads leads_takeByte fun byte => ?_
  split
  · exact TakesPrefix.pure _
  · exact TakesPrefix.pure _
  · exact TakesPrefix.throw _

theorem refusesLate_takePacked : RefusesLate takePacked := by
  refine refusesLate_takeByte.bind_of_leads leads_takeByte fun byte => ?_
  split
  · exact TakesPrefix.pure _
  · exact TakesPrefix.pure _
  · exact TakesPrefix.pure _
  · exact TakesPrefix.throw _

theorem refusesLate_takeTag (alternatives : Nat) : RefusesLate (takeTag alternatives) := by
  refine refusesLate_takeByte.bind_of_leads leads_takeByte fun tag => ?_
  split
  · exact TakesPrefix.pure _
  · exact TakesPrefix.throw _

theorem refusesLate_takeFixed (t : FixedInt) : RefusesLate t.take :=
  (RefusesLate.of_demands (demands_read t.bytes)).map

theorem refusesLate_takeCoded (coding : IntegerCoding α) : RefusesLate coding.take := by
  refine (refusesLate_takeFixed _).bind_of_leads (leads_takeFixed _) fun n => ?_
  split
  · exact TakesPrefix.pure _
  · exact TakesPrefix.throw _

theorem RefusesLate.readMany {item : Reader α} (hitem : RefusesLate item)
    (htakes : TakesPrefix item) (n : Nat) : RefusesLate (readMany n item) := by
  induction n with
  | zero => exact RefusesLate.pure []
  | succ n ih =>
    rw [readMany_succ]
    exact hitem.bind htakes fun a => ih.map

theorem RefusesLate.mapM {step : α → Reader β} {items : List α}
    (hstep : ∀ a ∈ items, RefusesLate (step a)) (htakes : ∀ a ∈ items, TakesPrefix (step a)) :
    RefusesLate (items.mapM step) := by
  induction items with
  | nil => exact RefusesLate.pure []
  | cons a items ih =>
    rw [List.mapM_cons]
    refine (hstep a (by simp)).bind (htakes a (by simp)) fun b => ?_
    exact (ih (fun other hother => hstep other (by simp [hother]))
      fun other hother => htakes other (by simp [hother])).map

end Reader

namespace Definitions

open Reader

variable {ι : Type} {defs : Definitions ι Empty} {named : ι → Layout} {self : ι → Reader Value}

theorem refusesLate_readWith {s : Schema ι Empty} (hwell : defs.WellFormed s)
    (htakes : ∀ name, TakesPrefix (self name))
    (hself : ∀ name, defs.Occurs s (.ref name) → RefusesLate (self name)) :
    RefusesLate (s.readWith named self) := by
  have hshorter : ∀ t : Schema ι Empty, TakesPrefix (t.readWith named self) :=
    TakesPrefix.readWith htakes
  have hcounted : ∀ itemSize limit {α β : Type} {item : Reader α} (f : List α → β),
      TakesPrefix item → RefusesLate (takeItemCount itemSize limit >>= fun count =>
        readMany count item >>= fun vs => pure (f vs)) := by
    intro itemSize limit α β item f hitem
    refine (refusesLate_takeItemCount _ _).bind_of_leads (leads_takeItemCount _ _) fun count => ?_
    exact TakesPrefix.bind (TakesPrefix.readMany hitem count) fun vs => TakesPrefix.pure _
  induction s using Schema.partInduction with
  | step s ih =>
    have hparts : ∀ part ∈ s.parts, RefusesLate (part.readWith named self) := by
      intro part hpart
      exact ih part hpart (forall_occurs_part hwell hpart)
        fun name hoccurs => hself name (.part hpart hoccurs)
    cases s with
    | unit => exact RefusesLate.pure _
    | bool => exact refusesLate_takeBool.map
    | int t => exact (refusesLate_takeFixed t).map
    | wide width => exact (RefusesLate.of_demands (demands_read width)).map.map
    | compact t => exact (refusesLate_takeCompact t).map
    | text => exact refusesLate_takeText.map
    | blob => exact refusesLate_takeCountedSpan.map
    | bits => exact refusesLate_takeBits.map
    | option content =>
      rw [Schema.readWith]
      split
      · exact refusesLate_takePacked
      · refine refusesLate_takeBool.bind_of_leads leads_takeBool fun there => ?_
        cases there with
        | true => exact (hshorter content).bind fun w => TakesPrefix.pure _
        | false => exact TakesPrefix.pure _
    | result success failure =>
      refine (refusesLate_takeTag 2).bind_of_leads (leads_takeTag 2) fun tag => ?_
      split
      · exact (hshorter success).bind fun w => TakesPrefix.pure _
      · exact (hshorter failure).bind fun w => TakesPrefix.pure _
    | sequence kind item => exact hcounted _ _ Value.list (hshorter item)
    | set keys item => exact hcounted _ _ keys.order.set (hshorter item)
    | map keys key value =>
      refine hcounted _ _ keys.order.map ((hshorter key).bind fun k => ?_)
      exact (hshorter value).bind fun w => TakesPrefix.pure _
    | array count item =>
      exact (RefusesLate.readMany (hparts item (by simp [Schema.parts])) (hshorter item) count).map
    | tuple items =>
      rw [Schema.readWith, Schema.readAll_eq_mapM]
      exact (RefusesLate.mapM hparts fun item _ => hshorter item).map
    | pointer pointee => exact hparts pointee (by simp [Schema.parts])
    | weak writeOnly _ => exact writeOnly.elim
    | encoded writeOnly => exact writeOnly.elim
    | record labels selection fields =>
      obtain ⟨_, hrange⟩ := hwell _ (.refl _)
      refine RefusesLate.map (RefusesLate.mapM (fun i hi => ?_)
        fun i _ => TakesPrefix.readNth htakes fields i)
      have hlt := hrange i hi
      have hget : fields[i]? = some fields[i] := List.getElem?_eq_getElem hlt
      rw [Schema.readNth_eq, hget]
      exact hparts _ (Schema.mem_parts_record hi hget)
    | sum names alternatives =>
      refine (refusesLate_takeTag _).bind_of_leads (leads_takeTag _) fun tag => ?_
      exact (TakesPrefix.readNth htakes alternatives tag).bind fun w => TakesPrefix.pure _
    | enumeration e => exact (refusesLate_takeCoded e.coding).map
    | range r => exact (refusesLate_takeCoded r.coding).map
    | ref name => exact hself name (.refl _)

theorem refusesLate_readRef (depth : Nat) {name : ι} (hwell : defs.WellFormed (.ref name)) :
    RefusesLate (defs.readRef depth name) := by
  induction depth generalizing name with
  | zero =>
    intro source after e hrun hdata
    exact absurd (EStateM.Result.error.inj hrun).1.symm hdata
  | succ depth ih =>
    have hbody := forall_occurs_body hwell
    refine refusesLate_readWith hbody (defs.takesPrefix_readRef depth) fun other hoccurs => ?_
    exact ih fun t ht => hbody t (hoccurs.trans ht)

/-- All types that can be declared are refused late. -/
theorem refusesLate_read {s : Schema ι Empty} (hwell : defs.WellFormed s) :
    RefusesLate (defs.read s) := by
  intro source after e hrun hdata
  refine refusesLate_readWith hwell (defs.takesPrefix_readRef _) (fun name hoccurs => ?_) hrun hdata
  exact refusesLate_readRef _ fun t ht => hwell t (hoccurs.trans ht)

end Definitions

end Scale
