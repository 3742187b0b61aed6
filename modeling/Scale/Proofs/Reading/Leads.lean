import Scale.Proofs.FixedInt
import Scale.Proofs.Reading.Prefix

namespace Scale

namespace Reader

variable {α β : Type}

theorem TakesPrefix.length_le {step : Reader α} (hstep : TakesPrefix step) {source after : Source}
    {a : α} (hrun : step source = .ok a after) : after.bytes.length ≤ source.bytes.length := by
  obtain ⟨taken, rest, hbytes, hrest⟩ := hstep source
  simp only [remainder, hrun] at hrest
  rw [hrest, Source.bytes_withBytes, hbytes, List.length_append]
  omega

/-- Wherever the step succeeds, it has taken at least one byte. -/
def Leads (step : Reader α) : Prop :=
  ∀ ⦃source after : Source⦄ ⦃a : α⦄, step source = .ok a after →
    after.bytes.length < source.bytes.length

theorem Leads.bind {step : Reader α} {next : α → Reader β} (hstep : Leads step)
    (hnext : ∀ a, TakesPrefix (next a)) : Leads (step >>= next) := by
  intro source after b hrun
  obtain ⟨a, middle, hfirst, hsecond⟩ := Step.bind_eq_ok_iff.1 hrun
  exact Nat.lt_of_le_of_lt ((hnext a).length_le hsecond) (hstep hfirst)

theorem Leads.bind_right {step : Reader α} {next : α → Reader β} (hstep : TakesPrefix step)
    (hnext : ∀ a, Leads (next a)) : Leads (step >>= next) := by
  intro source after b hrun
  obtain ⟨a, middle, hfirst, hsecond⟩ := Step.bind_eq_ok_iff.1 hrun
  exact Nat.lt_of_lt_of_le (hnext a hsecond) (hstep.length_le hfirst)

theorem Leads.map {step : Reader α} {f : α → β} (hstep : Leads step) :
    Leads (step >>= fun a => pure (f a)) :=
  hstep.bind fun a => TakesPrefix.pure (f a)

theorem Leads.of_demands {step : Reader α} {amount used : Nat} {value : List UInt8 → α}
    (hstep : Demands step amount used value) (hused : 0 < used) : Leads step := by
  intro source after a hrun
  have hused_le := hstep.used_le
  by_cases hle : amount ≤ source.bytes.length
  · rw [hstep.ok hle] at hrun
    rw [← (EStateM.Result.ok.inj hrun).2, Source.bytes_withBytes, List.length_drop]
    omega
  · rw [hstep.error (Nat.not_le.1 hle)] at hrun
    cases hrun

theorem leads_takeByte : Leads takeByte :=
  Leads.of_demands demands_takeByte Nat.one_pos

theorem leads_takeCompact (t : IntegerType) : Leads (takeCompact t) := by
  intro source after n hrun
  obtain ⟨m, rest, _, _, _, hbytes, rfl⟩ := bytes_of_takeCompact hrun
  have hpos := source.scheme.length_spelling_pos m
  rw [Source.bytes_withBytes, hbytes, List.length_append]
  omega

theorem leads_takeCount (limit : Nat) : Leads (takeCount limit) := by
  intro source after count hrun
  obtain ⟨rest, _, _, hbytes, rfl⟩ := bytes_of_takeCount hrun
  have hpos := source.scheme.length_spelling_pos count
  rw [Source.bytes_withBytes, hbytes, List.length_append]
  omega

theorem leads_takeItemCount (itemSize limit : Nat) : Leads (takeItemCount itemSize limit) := by
  intro source after count hrun
  obtain ⟨rest, _, _, hbytes, rfl⟩ := bytes_of_takeItemCount hrun
  have hpos := source.scheme.length_spelling_pos count
  rw [Source.bytes_withBytes, hbytes, List.length_append]
  omega

theorem leads_takeCountedSpan : Leads takeCountedSpan := by
  refine (leads_takeCount _).bind fun count => ?_
  rw [readSpan_eq_read]
  exact takesPrefix_congruence.read count

theorem leads_takeText : Leads takeText := by
  refine leads_takeCountedSpan.bind fun bytes => ?_
  split
  · exact TakesPrefix.pure _
  · exact TakesPrefix.throw _

theorem leads_takeBits : Leads BitSeq.take := by
  rw [BitSeq.take_eq]
  refine (leads_takeCount _).bind fun count => (takesPrefix_congruence.need _).bind fun _ =>
    (takesPrefix_congruence.read _).bind fun bytes => ?_
  split
  · exact TakesPrefix.pure _
  · exact TakesPrefix.throw _

theorem leads_takeBool : Leads takeBool := by
  refine leads_takeByte.bind fun byte => ?_
  split
  · exact TakesPrefix.pure _
  · exact TakesPrefix.pure _
  · exact TakesPrefix.throw _

theorem leads_takePacked : Leads takePacked := by
  refine leads_takeByte.bind fun byte => ?_
  split
  · exact TakesPrefix.pure _
  · exact TakesPrefix.pure _
  · exact TakesPrefix.pure _
  · exact TakesPrefix.throw _

theorem leads_takeTag (alternatives : Nat) : Leads (takeTag alternatives) := by
  refine leads_takeByte.bind fun tag => ?_
  split
  · exact TakesPrefix.pure _
  · exact TakesPrefix.throw _

theorem leads_takeFixed (t : FixedInt) : Leads t.take :=
  (Leads.of_demands (demands_read t.bytes) t.bytes_pos).map

theorem leads_takeCoded (coding : IntegerCoding α) : Leads coding.take := by
  refine (leads_takeFixed _).bind fun n => ?_
  split
  · exact TakesPrefix.pure _
  · exact TakesPrefix.throw _

end Reader

namespace Schema

open Reader

variable {ι : Type} {named : ι → Layout} {self : ι → Reader Value}

theorem readAll_eq_mapM (items : List (Schema ι Empty)) :
    readAll named self items = items.mapM fun item => item.readWith named self := by
  induction items with
  | nil => rfl
  | cons item items ih => rw [readAll, List.mapM_cons, ih]

theorem anyLeads_eq (items : List (Schema ι Empty)) : anyLeads items = items.any leads := by
  induction items with
  | nil => rfl
  | cons item items ih => rw [anyLeads, List.any_cons, ih]

theorem leadsAt_eq (fields : List (Schema ι Empty)) (i : Nat) :
    leadsAt fields i = ((fields[i]?).any leads) := by
  induction fields generalizing i with
  | nil => rfl
  | cons field fields ih =>
    cases i with
    | zero => rfl
    | succ i => exact ih i

/-- One after the other, steps take a byte when one of them does. -/
theorem leads_mapM {α β : Type} {step : α → Reader β} {items : List α}
    (hsteps : ∀ a ∈ items, TakesPrefix (step a)) (hleads : ∃ a ∈ items, Leads (step a)) :
    Leads (items.mapM step) := by
  induction items with
  | nil =>
    obtain ⟨a, hmem, _⟩ := hleads
    cases hmem
  | cons a items ih =>
    have hrest : ∀ b ∈ items, TakesPrefix (step b) := fun b hb => hsteps b (by simp [hb])
    have hmap : TakesPrefix (items.mapM step) :=
      TakesPrefix.mapM hrest
    rw [List.mapM_cons]
    obtain ⟨b, hmem, hb⟩ := hleads
    rcases List.mem_cons.1 hmem with rfl | hmem
    · exact hb.bind fun value => hmap.bind fun values => TakesPrefix.pure _
    · exact Leads.bind_right (hsteps a (by simp)) fun value => (ih hrest ⟨b, hmem, hb⟩).map

/-- A schema all of whose values take a byte is read off at least one. -/
theorem leads_readWith (hself : ∀ name, TakesPrefix (self name)) {s : Schema ι Empty}
    (hleads : s.leads = true) : Leads (s.readWith named self) := by
  induction s using partInduction with
  | step s ih =>
    have htakes : ∀ t : Schema ι Empty, TakesPrefix (t.readWith named self) := TakesPrefix.readWith hself
    cases s with
    | unit => cases hleads
    | bool => exact leads_takeBool.map
    | int t => exact (leads_takeFixed t).map
    | wide width =>
      have hwidth : 0 < width := Nat.pos_of_ne_zero (by simpa [leads] using hleads)
      exact (Leads.of_demands (demands_read width) hwidth).map.map
    | compact t => exact (leads_takeCompact t).map
    | text => exact leads_takeText.map
    | blob => exact leads_takeCountedSpan.map
    | bits => exact leads_takeBits.map
    | option content =>
      rw [readWith]
      split
      · exact leads_takePacked
      · refine leads_takeBool.bind fun there => ?_
        cases there with
        | true => exact (htakes content).bind fun w => TakesPrefix.pure _
        | false => exact TakesPrefix.pure _
    | result success failure =>
      refine (leads_takeTag 2).bind fun tag => ?_
      split
      · exact (htakes success).bind fun w => TakesPrefix.pure _
      · exact (htakes failure).bind fun w => TakesPrefix.pure _
    | sequence kind item =>
      refine (leads_takeItemCount _ _).bind fun count => ?_
      exact TakesPrefix.bind (TakesPrefix.readMany (htakes item) count) fun vs => TakesPrefix.pure _
    | set keys item =>
      refine (leads_takeItemCount _ _).bind fun count => ?_
      exact TakesPrefix.bind (TakesPrefix.readMany (htakes item) count) fun vs => TakesPrefix.pure _
    | map keys key value =>
      refine (leads_takeItemCount _ _).bind fun count => ?_
      refine TakesPrefix.bind (TakesPrefix.readMany ?_ count) fun vs => TakesPrefix.pure _
      exact (htakes key).bind fun k => (htakes value).bind fun w => TakesPrefix.pure _
    | array count item =>
      obtain ⟨hcount, hitem⟩ : count ≠ 0 ∧ item.leads = true := by simpa [leads] using hleads
      obtain ⟨fewer, rfl⟩ := Nat.exists_eq_succ_of_ne_zero hcount
      refine Leads.map ?_
      rw [readMany_succ]
      refine (ih item (by simp [parts]) hitem).bind fun v => ?_
      exact TakesPrefix.bind (TakesPrefix.readMany (htakes item) fewer) fun vs => TakesPrefix.pure _
    | tuple items =>
      rw [leads, anyLeads_eq, List.any_eq_true] at hleads
      obtain ⟨item, hitem, hleads⟩ := hleads
      rw [readWith, readAll_eq_mapM]
      exact (leads_mapM (fun other _ => htakes other) ⟨item, hitem, ih item hitem hleads⟩).map
    | pointer pointee => exact ih pointee (by simp [parts]) hleads
    | weak writeOnly _ => exact writeOnly.elim
    | encoded writeOnly => exact writeOnly.elim
    | record labels selection fields =>
      rw [leads, List.any_eq_true] at hleads
      obtain ⟨i, hi, hleads⟩ := hleads
      rw [leadsAt_eq] at hleads
      cases hget : fields[i]? with
      | none => simp [hget] at hleads
      | some field =>
        rw [hget, Option.any_some] at hleads
        have hfield : Leads (readNth named self fields i) := by
          rw [readNth_eq, hget]
          exact ih field (mem_parts_record hi hget) hleads
        exact (leads_mapM (fun j _ => TakesPrefix.readNth hself fields j) ⟨i, hi, hfield⟩).map
    | sum names alternatives =>
      refine (leads_takeTag _).bind fun tag => ?_
      exact (TakesPrefix.readNth hself alternatives tag).bind fun w => TakesPrefix.pure _
    | enumeration e => exact (leads_takeCoded e.coding).map
    | range r => exact (leads_takeCoded r.coding).map
    | ref name => cases hleads

end Schema

end Scale
