import Scale.Proofs.Reading.Canonical
import Scale.Proofs.Reading.Persistence
import Scale.Proofs.Reading.Typing
import Scale.Proofs.RoundTrip.Separation
import Scale.Proofs.RoundTrip.Values

namespace Scale

open Reader Writer

namespace Writer

variable {α : Type} {scheme : Scheme} {put : α → Writer Unit} {as : List α}

theorem Emits.of_mem_forM (huniform : ∀ a, Uniform (put a)) {bytes : List UInt8}
    (hemits : Emits scheme (as.forM put) bytes) : ∀ a ∈ as, ∃ xs, Emits scheme (put a) xs := by
  induction as generalizing bytes with
  | nil => nofun
  | cons a as ih =>
    obtain ⟨xs, ys, _, hxs, hys⟩ :=
      hemits.of_seq (huniform a) (Uniform.forM fun b _ => huniform b)
    exact List.forall_mem_cons.2 ⟨⟨xs, hxs⟩, ih hys⟩

theorem exists_emits_forM (hemits : ∀ a ∈ as, ∃ xs, Emits scheme (put a) xs) :
    ∃ bytes, Emits scheme (as.forM put) bytes := by
  induction as with
  | nil => exact ⟨[], Emits.pure⟩
  | cons a as ih =>
    obtain ⟨⟨xs, hxs⟩, hrest⟩ := List.forall_mem_cons.1 hemits
    obtain ⟨ys, hys⟩ := ih hrest
    exact ⟨xs ++ ys, hxs.bind hys⟩

/-- Of items that are written, no more than all of them are written in any selection and order. -/
theorem exists_emits_counted {bs : List α} (huniform : ∀ a, Uniform (put a)) {bytes : List UInt8}
    (hemits : Emits scheme (putCounted put as) bytes) (hsubset : bs ⊆ as)
    (hlength : bs.length ≤ as.length) : ∃ bytes, Emits scheme (putCounted put bs) bytes := by
  obtain ⟨_, payload, _, hheader, hpayload⟩ :=
    hemits.of_seq (Uniform.putCount _) (Uniform.forM fun a _ => huniform a)
  obtain ⟨hlt, _⟩ := emits_putCount_iff.1 hheader
  obtain ⟨xs, hxs⟩ := exists_emits_forM fun b hb => hpayload.of_mem_forM huniform b (hsubset hb)
  exact ⟨_, Emits.bind (emits_putCount_iff.2 ⟨Nat.lt_of_le_of_lt hlength hlt, rfl⟩) hxs⟩

end Writer

namespace Reader

variable {α : Type} {scheme : Scheme} {room : Nat} {put : α → Writer Unit} {item : Reader α}
  {as : List α}

theorem YieldsBefore.readMany (huniform : ∀ a, Writer.Uniform (put a))
    (hitems : ∀ a ∈ as, ∀ xs, Emits scheme (put a) xs → YieldsBefore scheme room item xs a)
    {bytes : List UInt8} (hemits : Emits scheme (as.forM put) bytes) :
    YieldsBefore scheme room (readMany as.length item) bytes as := by
  induction as generalizing bytes with
  | nil =>
    rw [hemits.unique Emits.pure]
    exact (Yields.pure []).before room
  | cons a as ih =>
    obtain ⟨xs, ys, rfl, hxs, hys⟩ :=
      hemits.of_seq (huniform a) (Writer.Uniform.forM fun b _ => huniform b)
    have hrest := ih (fun b hb => hitems b (by simp [hb])) hys
    rw [List.length_cons, readMany_succ]
    exact (hitems a (by simp) xs hxs).bind (Nat.le_add_left room _) hrest.map

/-- A count is accepted where there are bytes enough for it. -/
theorem YieldsBefore.takeCounted (huniform : ∀ a, Writer.Uniform (put a)) {itemSize limit : Nat}
    (hlimit : as.length ≤ limit) (hmemory : as.length ≤ maxItems itemSize)
    (hitems : ∀ a ∈ as, ∀ xs, Emits scheme (put a) xs → YieldsBefore scheme room item xs a)
    {bytes : List UInt8} (hemits : Emits scheme (putCounted put as) bytes)
    (hroom : itemSize ≠ 0 → ∀ payload, Emits scheme (as.forM put) payload →
      as.length ≤ payload.length + room) :
    YieldsBefore scheme room (takeCounted itemSize limit item) bytes as := by
  obtain ⟨header, payload, rfl, hheader, hpayload⟩ :=
    hemits.of_seq (Writer.Uniform.putCount _) (Writer.Uniform.forM fun a _ => huniform a)
  obtain ⟨hlt, rfl⟩ := emits_putCount_iff.1 hheader
  exact YieldsBefore.takeItemCount_bind hlimit hmemory hlt (fun hsize => hroom hsize payload hpayload)
    (.readMany huniform hitems hpayload)

end Reader

namespace Definitions

variable {ι : Type} {defs : Definitions ι Empty} {s entry : Schema ι Empty}

/-- In every collection in the schema, items that take memory take bytes as well. -/
def Dense (defs : Definitions ι Empty) (s : Schema ι Empty) : Prop :=
  ∀ t, defs.Occurs s t → ∀ item, t.counted? = some item → item.size defs.layout ≠ 0 →
    Leads (defs.read item)

/-- It can be seen from the schema that items take bytes. -/
theorem dense_of_leads (hitems : ∀ t, defs.Occurs s t → ∀ item, t.counted? = some item →
    item.size defs.layout = 0 ∨ item.leads = true) : defs.Dense s := by
  intro t hoccurs item hitem hsize
  rcases hitems t hoccurs item hitem with hzero | hleads
  · exact absurd hzero hsize
  · rw [← readWith_read]
    exact Schema.leads_readWith (fun name => defs.takesPrefix_read (.ref name)) hleads

theorem Dense.counted (hdense : defs.Dense s) (hentry : s.counted? = some entry) :
    defs.Dense entry := by
  intro t hoccurs item hitem
  cases s with
  | sequence kind item =>
    obtain rfl := Option.some.inj hentry
    exact hdense t (.part (List.mem_singleton_self _) hoccurs) _ hitem
  | set keys item =>
    obtain rfl := Option.some.inj hentry
    exact hdense t (.part (List.mem_singleton_self _) hoccurs) _ hitem
  | map keys key value =>
    obtain rfl := Option.some.inj hentry
    -- An entry is no collection itself, and its parts are those of the map.
    cases hoccurs with
    | refl => cases hitem
    | part hpart hoccurs => exact hdense t (.part hpart hoccurs) _ hitem
  | _ => cases hentry

theorem keysCoded_of_tableFree (hfree : defs.TableFree s) : defs.KeysCoded s := by
  intro t hoccurs key hkey
  cases t with
  | set => exact absurd trivial (hfree _ hoccurs)
  | map => exact absurd trivial (hfree _ hoccurs)
  | _ => cases hkey

section

variable (hwell : defs.WellFormed entry) (hfree : defs.TableFree entry)
  (hcoded : ∀ t, defs.Occurs entry t → t.FullyCoded)
include hwell hfree

theorem canonical_read : Canonical (defs.read entry) (defs.write entry) := by
  intro source after v hrun
  refine canonical_readWith hwell hfree (fun name hoccurs => ?_) hrun
  exact canonical_readRef _ (fun t ht => hwell t (hoccurs.trans ht))
    fun t ht => hfree t (hoccurs.trans ht)

/-- A value that was read with at least one byte is written with at least one. -/
theorem nonempty_of_gives (hleads : Leads (defs.read entry)) {source : Source} {v : Value}
    (hgives : GivesUnder source (defs.read entry) v) {bytes : Array UInt8}
    (hencode : defs.encodeFull source.scheme entry v = .ok bytes) : bytes ≠ #[] := by
  rintro rfl
  obtain ⟨before, after, hcovers, hrun⟩ := hgives
  have hless := hleads hrun
  obtain ⟨written, rest, hwritten, hbytes, rfl⟩ := canonical_read hwell hfree hrun
  rw [hcovers.scheme_eq] at hwritten
  rw [hwritten.unique (defs.encodeFull_eq_ok_iff.1 hencode)] at hbytes
  rw [Source.bytes_withBytes, hbytes] at hless
  exact Nat.lt_irrefl _ hless

/-- What was read is no more than reading expects, provided that items that take memory take
    bytes. -/
theorem fits_of_gives (hdense : defs.Dense entry) {source : Source} {v : Value}
    (hgives : GivesUnder source (defs.read entry) v) :
    ∀ t w, defs.Within entry v t w → defs.Fits source.scheme t w := by
  intro t w hwithin
  have hoccurs := hwithin.occurs
  obtain ⟨before, after, hcovers, hrun⟩ := givesUnder_of_within hwell hwithin hgives
  obtain ⟨hform, hholds, hparts⟩ := wellRead_of_read (hwell t hoccurs) hrun
  cases t with
  | text =>
    cases w with
    | text _ => exact hholds
    | _ => cases hform
  | blob =>
    cases w with
    | blob _ => exact hholds
    | _ => cases hform
  | bits =>
    cases w with
    | bits _ => exact hholds
    | _ => cases hform
  | sequence kind item =>
    cases w with
    | list vs =>
      refine ⟨hholds, fun hsize x hx bytes hencode => ?_⟩
      have hitem : ∀ u, defs.Occurs item u → defs.Occurs entry u := fun u hu =>
        hoccurs.trans (.part (List.mem_singleton_self item) hu)
      rw [← hcovers.scheme_eq] at hencode
      exact nonempty_of_gives (fun u hu => hwell u (hitem u hu)) (fun u hu => hfree u (hitem u hu))
        (hdense _ hoccurs item rfl hsize) (hparts item x (.item hx)) hencode
    | _ => cases hform
  | set keys item => exact absurd trivial (hfree _ hoccurs)
  | map keys key value => exact absurd trivial (hfree _ hoccurs)
  | _ => trivial

/-- What was read once is read again off its bytes wherever enough bytes follow. -/
theorem yieldsBefore_of_gives {source : Source} {v : Value}
    (hgives : GivesUnder source (defs.read entry) v) {bytes : List UInt8}
    (hemits : Emits source.scheme (defs.write entry v) bytes) :
    YieldsBefore source.scheme source.bytes.length (defs.read entry) bytes v := by
  obtain ⟨before, after, hcovers, hrun⟩ := hgives
  obtain ⟨written, rest, hwritten, hbytes, rfl⟩ := canonical_read hwell hfree hrun
  obtain ⟨_, taken, htaken, hyields⟩ := defs.persists_read entry hrun
  rw [Source.bytes_withBytes] at htaken hyields
  obtain rfl := List.append_cancel_right (hbytes.symm.trans htaken)
  rw [hcovers.scheme_eq] at hwritten hyields
  rw [hemits.unique hwritten]
  have hlength := hcovers.length_le
  rw [hbytes, List.length_append] at hlength
  exact hyields.mono (by omega)

include hcoded

/-- What was read once is read again off its bytes whatever follows, provided that items that take
    memory take bytes. -/
theorem yields_of_gives (hdense : defs.Dense entry) {source : Source} {v : Value}
    (hgives : GivesUnder source (defs.read entry) v) {bytes : List UInt8}
    (hemits : Emits source.scheme (defs.write entry v) bytes) :
    Yields source.scheme (defs.read entry) bytes v := by
  have htype := (hasType_of_read hwell hgives).1
  have hround : defs.RoundTrips source.scheme entry v :=
    roundTrips hwell htype (fits_of_gives hwell hfree hdense hgives) (keysCoded_of_tableFree hfree)
  rw [RoundTrips, forget_eq_self hcoded htype] at hround
  exact hround.yields hemits

/-- Whatever is read off the bytes of given entries, it is these entries. -/
theorem eq_of_read_entries {es ds : List Value} (htypes : ∀ e ∈ es, defs.HasType entry e)
    {source after : Source} {wire rest : List UInt8}
    (hwire : Emits source.scheme (defs.write (.sequence .vector entry) (.list es)) wire)
    (hbytes : source.bytes = wire ++ rest)
    (hrun : defs.read (.sequence .vector entry) source = .ok (.list ds) after) :
    ds = es ∧ after = source.withBytes rest := by
  have hforget : ∀ {us : List Value}, (∀ u ∈ us, defs.HasType entry u) →
      us.map (defs.forget entry) = us := fun hus =>
    (List.map_congr_left fun u hu => forget_eq_self hcoded (hus u hu)).trans (List.map_id _)
  rw [write_sequence] at hwire
  rw [read_sequence] at hrun
  obtain ⟨vs, hvs, heq⟩ := Step.map_eq_ok_iff.1 hrun
  obtain rfl := Value.list.inj heq
  obtain ⟨_, _, _, hgives⟩ := items_of_takeCounted (defs.takesPrefix_read entry) hvs
  have hread : ∀ v ∈ vs, defs.HasType entry v := fun v hv =>
    (hasType_of_read hwell (hgives v hv)).1
  obtain ⟨bytes, left, hemits, hsource, rfl⟩ := (canonical_read hwell hfree).takeCounted _ _ hvs
  have hseparates : Separates source.scheme (putCounted (defs.write entry) vs)
      (putCounted (defs.write entry) es)
      (vs.map (defs.forget entry) = es.map (defs.forget entry)) :=
    .counted (defs.uniform_write entry) fun v hv e he =>
      separates_write hwell (hread v hv) (htypes e he)
  obtain ⟨hvalues, hrest⟩ := hseparates hemits hwire (hsource.symm.trans hbytes)
  rw [hforget hread, hforget htypes] at hvalues
  exact ⟨hvalues, by rw [hrest]⟩

end

end Definitions

end Scale
