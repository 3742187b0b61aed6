import Scale.Catalogue
import Scale.Proofs.Reading.Congruence
import Scale.Proofs.Reading.Spans
import Scale.Proofs.Schema.Typing
import Scale.Proofs.Value.Place
import Scale.Proofs.Writing.Equations

namespace Scale

open Reader Writer

theorem Reader.Canonical.mapM {α β : Type} {step : α → Reader β} {put : α → β → Writer Unit}
    {items : List α} (hstep : ∀ a ∈ items, Canonical (step a) (put a)) {source after : Source}
    {values : List β} (hrun : items.mapM step source = .ok values after) :
    values.length = items.length ∧
      Spans ((items.zip values).forM fun entry => put entry.1 entry.2) source after := by
  induction items generalizing source values with
  | nil =>
    obtain ⟨rfl, rfl⟩ := Step.pure_eq_ok_iff.1 hrun
    exact ⟨rfl, Spans.pure source⟩
  | cons a items ih =>
    rw [List.mapM_cons] at hrun
    obtain ⟨value, middle, hvalue, hrest⟩ := Step.bind_eq_ok_iff.1 hrun
    obtain ⟨others, hothers, rfl⟩ := Step.map_eq_ok_iff.1 hrest
    obtain ⟨hlength, hspans⟩ := ih (fun b hb => hstep b (by simp [hb])) hothers
    exact ⟨by rw [List.length_cons, List.length_cons, hlength],
      (hstep a (by simp) hvalue).bind hspans⟩

theorem Writer.forM_eq_forM_zip {α β : Type} {put : α → Writer Unit} {items : List α}
    {values : List β} (hlength : values.length = items.length) :
    items.forM put = (items.zip values).forM fun entry => put entry.1 := by
  have hitems : (items.zip values).map Prod.fst = items :=
    List.map_fst_zip (Nat.le_of_eq hlength.symm)
  calc items.forM put = ((items.zip values).map Prod.fst).forM put := by rw [hitems]
    _ = (items.zip values).forM fun entry => put entry.1 := by
      rw [List.forM_eq_forM, List.forM_map, List.forM_eq_forM]

/-- Whether the values of a schema are sets or maps. -/
def Schema.IsTable {ι ω : Type} : Schema ι ω → Prop
  | set _ _ => True
  | map _ _ _ => True
  | _ => False

namespace Definitions

variable {ι : Type} {defs : Definitions ι Empty} {named : ι → Layout} {self : ι → Reader Value}

/-- No set and no map occurs in the schema. -/
def TableFree (defs : Definitions ι Empty) (s : Schema ι Empty) : Prop :=
  ∀ t, defs.Occurs s t → ¬ t.IsTable

theorem canonical_readAll {items : List (Schema ι Empty)}
    (hitems : ∀ item ∈ items, Canonical (item.readWith named self) (defs.write item)) :
    Canonical (Schema.readAll named self items) fun vs => defs.write (.tuple items) (.list vs) := by
  induction items with
  | nil =>
    intro source after vs hrun
    obtain ⟨rfl, rfl⟩ := Step.pure_eq_ok_iff.1 hrun
    dsimp only
    rw [write_tuple_nil]
    exact Spans.pure source
  | cons item items ih =>
    intro source after vs hrun
    obtain ⟨v, middle, hv, hrest⟩ := Step.bind_eq_ok_iff.1 hrun
    obtain ⟨others, hothers, rfl⟩ := Step.map_eq_ok_iff.1 hrest
    dsimp only
    rw [write_tuple_cons]
    exact (hitems item (by simp) hv).bind (ih (fun other hother => hitems other (by simp [hother])) hothers)

/-- Writes a value of the schema at an index. -/
def writeAt (defs : Definitions ι Empty) (fields : List (Schema ι Empty)) (i : Nat) (v : Value) :
    Writer Unit :=
  match fields[i]? with
  | .some field => defs.write field v
  | .none => throw .illTyped

/-- The fields that are read are put where the record is written from. -/
theorem canonical_record {labels : Labels} {selection : Selection} {fields : List (Schema ι Empty)}
    (hnodup : selection.order.Nodup) (hrange : ∀ i ∈ selection.order, i < fields.length)
    (hfields : ∀ i ∈ selection.order, ∀ field, fields[i]? = some field →
      Canonical (field.readWith named self) (defs.write field)) :
    Canonical ((Schema.record labels selection fields).readWith named self)
      (defs.write (.record labels selection fields)) := by
  intro source after v hrun
  obtain ⟨vs, hvs, rfl⟩ := Step.map_eq_ok_iff.1 hrun
  have hput : ∀ i ∈ selection.order,
      Canonical (Schema.readNth named self fields i) (defs.writeAt fields i) := by
    intro i hi source after v hread
    rw [Schema.readNth_eq] at hread
    cases hget : fields[i]? with
    | none =>
      rw [hget] at hread
      cases hread
    | some field =>
      rw [hget] at hread
      rw [writeAt, hget]
      exact hfields i hi field hget hread
  obtain ⟨hlength, hspans⟩ := Canonical.mapM hput hvs
  have hplaced : defs.write (.record labels selection fields)
      (.list (Value.place selection.order vs (selection.blank fields.length))) =
        (selection.order.zip vs).forM fun entry => defs.writeAt fields entry.1 entry.2 := by
    rw [write_record, forM_eq_forM_zip hlength]
    refine Writer.congruence_eq.forM fun entry hentry => ?_
    rw [selection.getElem?_place_blank _ hnodup hrange hentry]
    rw [writeAt]
    cases fields[entry.1]? <;> rfl
  rw [hplaced]
  exact hspans

/-- What is read of a schema without sets and maps is what is written for it, if that is so for the
    recursive types in it. -/
theorem canonical_readWith {s : Schema ι Empty} (hwell : defs.WellFormed s)
    (htables : defs.TableFree s)
    (hself : ∀ name, defs.Occurs s (.ref name) → Canonical (self name) (defs.write (.ref name))) :
    Canonical (s.readWith named self) (defs.write s) := by
  induction s using Schema.partInduction with
  | step s ih =>
    have hparts : ∀ part ∈ s.parts, Canonical (part.readWith named self) (defs.write part) := by
      intro part hpart
      exact ih part hpart (forall_occurs_part hwell hpart) (forall_occurs_part htables hpart)
        fun name hoccurs => hself name (.part hpart hoccurs)
    intro source after v hrun
    cases s with
    | unit =>
      obtain ⟨rfl, rfl⟩ := Step.pure_eq_ok_iff.1 hrun
      exact Spans.pure source
    | bool =>
      obtain ⟨b, hb, rfl⟩ := Step.map_eq_ok_iff.1 hrun
      exact canonical_takeBool hb
    | int t =>
      obtain ⟨n, hn, rfl⟩ := Step.map_eq_ok_iff.1 hrun
      exact canonical_takeFixed t hn
    | wide width =>
      obtain ⟨n, hn, rfl⟩ := Step.map_eq_ok_iff.1 hrun
      exact canonical_takeWide width hn
    | compact t =>
      obtain ⟨n, hn, rfl⟩ := Step.map_eq_ok_iff.1 hrun
      exact canonical_takeCompact t hn
    | text =>
      obtain ⟨s, hs, rfl⟩ := Step.map_eq_ok_iff.1 hrun
      exact canonical_takeText hs
    | blob =>
      obtain ⟨bytes, hbytes, rfl⟩ := Step.map_eq_ok_iff.1 hrun
      exact canonical_takeCountedSpan hbytes
    | bits =>
      obtain ⟨bits, hbits, rfl⟩ := Step.map_eq_ok_iff.1 hrun
      exact canonical_takeBits hbits
    | option content =>
      rw [Schema.readWith] at hrun
      split at hrun
      · rename_i hbool
        rw [write_packed defs hbool]
        exact canonical_takePacked hrun
      · rename_i hbool
        have hbool := eq_false_of_ne_true hbool
        obtain ⟨there, middle, hthere, hrest⟩ := Step.bind_eq_ok_iff.1 hrun
        cases there with
        | true =>
          obtain ⟨w, hw, rfl⟩ := Step.map_eq_ok_iff.1 hrest
          rw [write_present defs hbool]
          exact (canonical_takeBool hthere).bind (hparts content (by simp [Schema.parts]) hw)
        | false =>
          obtain ⟨rfl, rfl⟩ := Step.pure_eq_ok_iff.1 hrest
          rw [write_absent defs hbool]
          exact canonical_takeBool hthere
    | result success failure =>
      obtain ⟨tag, middle, htag, hrest⟩ := Step.bind_eq_ok_iff.1 hrun
      have hspans := canonical_takeTag htag
      have hlt := lt_of_takeTag htag
      rcases tag with _ | _ | tag
      · obtain ⟨w, hw, rfl⟩ := Step.map_eq_ok_iff.1 hrest
        rw [write_success]
        exact hspans.bind (hparts success (by simp [Schema.parts]) hw)
      · obtain ⟨w, hw, rfl⟩ := Step.map_eq_ok_iff.1 hrest
        rw [write_failure]
        exact hspans.bind (hparts failure (by simp [Schema.parts]) hw)
      · omega
    | sequence kind item =>
      rw [Schema.readWith, ← bind_assoc] at hrun
      obtain ⟨vs, hvs, rfl⟩ := Step.map_eq_ok_iff.1 hrun
      rw [write_sequence]
      exact Canonical.takeCounted (hparts item (by simp [Schema.parts])) _ _ hvs
    | set keys item => exact absurd trivial (htables _ (.refl _))
    | map keys key value => exact absurd trivial (htables _ (.refl _))
    | array count item =>
      obtain ⟨vs, hvs, rfl⟩ := Step.map_eq_ok_iff.1 hrun
      rw [write_array]
      exact Canonical.readMany (hparts item (by simp [Schema.parts])) count hvs
    | tuple items =>
      obtain ⟨vs, hvs, rfl⟩ := Step.map_eq_ok_iff.1 hrun
      exact canonical_readAll hparts hvs
    | pointer pointee =>
      rw [write_pointer]
      exact hparts pointee (by simp [Schema.parts]) hrun
    | weak writeOnly _ => exact writeOnly.elim
    | encoded writeOnly => exact writeOnly.elim
    | record labels selection fields =>
      obtain ⟨hnodup, hrange⟩ := hwell _ (.refl _)
      refine canonical_record hnodup hrange (fun i hi field hget => ?_) hrun
      exact hparts field (Schema.mem_parts_record hi hget)
    | sum names alternatives =>
      obtain ⟨tag, middle, htag, hrest⟩ := Step.bind_eq_ok_iff.1 hrun
      obtain ⟨w, hw, rfl⟩ := Step.map_eq_ok_iff.1 hrest
      rw [Schema.readNth_eq] at hw
      cases hget : alternatives[tag]? with
      | none =>
        rw [hget] at hw
        cases hw
      | some alternative =>
        rw [hget] at hw
        rw [write_sum defs names hget]
        exact (canonical_takeTag htag).bind (hparts alternative (List.mem_of_getElem? hget) hw)
    | enumeration e =>
      obtain ⟨i, hi, rfl⟩ := Step.map_eq_ok_iff.1 hrun
      exact canonical_takeCoded (fun n a hindex => Enumeration.toRepr_of_index? hindex) hi
    | range r =>
      obtain ⟨n, hn, rfl⟩ := Step.map_eq_ok_iff.1 hrun
      exact canonical_takeCoded (fun m a hvalue => IntegerRange.eq_of_ofRepr? hvalue) hn
    | ref name => exact hself name (.refl _) hrun

theorem canonical_readRef (depth : Nat) {name : ι} (hwell : defs.WellFormed (.ref name))
    (htables : defs.TableFree (.ref name)) :
    Canonical (defs.readRef depth name) (defs.write (.ref name)) := by
  intro source after v hrun
  induction depth generalizing name source after v with
  | zero => cases hrun
  | succ depth ih =>
    rw [write_ref]
    have hbody := forall_occurs_body hwell
    have htable := forall_occurs_body htables
    refine canonical_readWith hbody htable (fun other hoccurs => ?_) hrun
    intro source after v hrun
    exact ih (fun t ht => hbody t (hoccurs.trans ht)) (fun t ht => htable t (hoccurs.trans ht)) hrun

/-- If a value is read off a source, then its bytes are what was taken, and so are they for every
    other source of the same scheme that it is read off. -/
theorem read_canonical {s : Schema ι Empty} (hwell : defs.WellFormed s) (htables : defs.TableFree s)
    {source after : Source} {v : Value} (hrun : defs.read s source = .ok v after) :
    ∃ bytes, defs.encodeFull source.scheme s v = .ok bytes ∧
      source.bytes = bytes.toList ++ after.bytes ∧
      ∀ other rest, other.scheme = source.scheme → defs.read s other = .ok v rest →
        other.bytes = bytes.toList ++ rest.bytes := by
  have hcanonical : Canonical (defs.read s) (defs.write s) := by
    intro source after v hrun
    refine canonical_readWith hwell htables (fun name hoccurs => ?_) hrun
    exact canonical_readRef _ (fun t ht => hwell t (hoccurs.trans ht))
      fun t ht => htables t (hoccurs.trans ht)
  obtain ⟨bytes, rest, hemits, hbytes, rfl⟩ := hcanonical hrun
  refine ⟨bytes.toArray, defs.encodeFull_eq_ok_iff.2 hemits, ?_, ?_⟩
  · rw [Source.bytes_withBytes, hbytes]
  · intro other rest' hscheme hother
    obtain ⟨bytes', last, hemits', hbytes', rfl⟩ := hcanonical hother
    rw [hscheme] at hemits'
    rw [Source.bytes_withBytes, hbytes', hemits.unique hemits']

open Catalogue in
/-- Two coded fields, the later one first, and a text between them that is not coded. -/
theorem read_canonical_reordered :
    ∃ bytes, none.encodeFull .classic (reordered : Schema Empty Empty)
        (.list [.int 513, .text "", .int 7]) = .ok bytes ∧
      [7, 1, 2, 99] = bytes.toList ++ [99] ∧
      ∀ other rest, other.scheme = .classic →
        none.read reordered other = .ok (.list [.int 513, .text "", .int 7]) rest →
          other.bytes = bytes.toList ++ rest.bytes := by
  have hoccurs : ∀ {P : Schema Empty Empty → Prop}, P reordered → P u8 → P u16 →
      ∀ t, none.Occurs reordered t → P t := by
    intro P hrecord hbyte hword
    refine forall_occurs_of_parts nofun hrecord fun part hpart => ?_
    obtain rfl | hpart := List.mem_cons.1 hpart
    · exact forall_occurs_of_parts nofun hbyte nofun
    · obtain rfl : part = u16 := List.mem_singleton.1 hpart
      exact forall_occurs_of_parts nofun hword nofun
  have hwell : none.WellFormed (reordered : Schema Empty Empty) :=
    hoccurs (by simp [Schema.Admissible, reordered]) trivial trivial
  have htables : none.TableFree (reordered : Schema Empty Empty) := hoccurs nofun nofun nofun
  have hrun : none.read reordered (.decoder .classic (.slice [7, 1, 2, 99])) =
      .ok (.list [.int 513, .text "", .int 7]) (.decoder .classic (.slice [99])) := rfl
  exact read_canonical hwell htables hrun

end Definitions

end Scale
