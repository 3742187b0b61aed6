import Scale.Proofs.Reading.Equations
import Scale.Proofs.Reading.Spans
import Scale.Proofs.Schema.Typing
import Scale.Proofs.Value.Place
import Scale.Proofs.Value.Table

namespace Scale

variable {α β : Type}

/-- The other source is of the same scheme and has no more bytes left. -/
structure Source.Covers (source other : Source) : Prop where
  scheme_eq : other.scheme = source.scheme
  length_le : other.bytes.length ≤ source.bytes.length

theorem Source.Covers.refl (source : Source) : source.Covers source :=
  ⟨rfl, Nat.le_refl _⟩

theorem Source.Covers.trans {source middle other : Source} (hmiddle : source.Covers middle)
    (hother : middle.Covers other) : source.Covers other :=
  ⟨hother.scheme_eq.trans hmiddle.scheme_eq, Nat.le_trans hother.length_le hmiddle.length_le⟩

namespace Reader

theorem TakesPrefix.covers {step : Reader α} (hstep : TakesPrefix step) {source after : Source}
    {a : α} (hrun : step source = .ok a after) : source.Covers after := by
  refine ⟨?_, hstep.length_le hrun⟩
  obtain ⟨taken, rest, _, hrest⟩ := hstep source
  simp only [remainder, hrun] at hrest
  rw [hrest, Source.scheme_withBytes]

/-- The step gives the value on a source of the same scheme with no more bytes. -/
def GivesUnder (source : Source) (step : Reader α) (a : α) : Prop :=
  ∃ before after, source.Covers before ∧ step before = .ok a after

theorem GivesUnder.of_ok {step : Reader α} {source after : Source} {a : α}
    (hrun : step source = .ok a after) : GivesUnder source step a :=
  ⟨source, after, .refl source, hrun⟩

theorem GivesUnder.of_covers {step : Reader α} {source middle : Source} {a : α}
    (hcovers : source.Covers middle) (hgives : GivesUnder middle step a) :
    GivesUnder source step a := by
  obtain ⟨before, after, hbefore, hrun⟩ := hgives
  exact ⟨before, after, hcovers.trans hbefore, hrun⟩

/-- Where a pair is read, so is each half of it. -/
theorem GivesUnder.pair {first : Reader α} {second : Reader β} (hfirst : TakesPrefix first)
    {source : Source} {a : α} {b : β}
    (hgives : GivesUnder source (do let a ← first; let b ← second; return (a, b)) (a, b)) :
    GivesUnder source first a ∧ GivesUnder source second b := by
  obtain ⟨before, after, hbefore, hrun⟩ := hgives
  obtain ⟨_, middle, ha, hrest⟩ := Step.bind_eq_ok_iff.1 hrun
  obtain ⟨_, hb, heq⟩ := Step.map_eq_ok_iff.1 hrest
  obtain ⟨rfl, rfl⟩ := Prod.mk.inj heq
  exact ⟨⟨before, middle, hbefore, ha⟩, middle, after, hbefore.trans (hfirst.covers ha), hb⟩

theorem givesUnder_of_readMany {item : Reader α} (hitem : TakesPrefix item) {n : Nat}
    {source after : Source} {items : List α} (hrun : readMany n item source = .ok items after) :
    ∀ a ∈ items, GivesUnder source item a := by
  induction n generalizing source items with
  | zero =>
    obtain ⟨rfl, _⟩ := Step.pure_eq_ok_iff.1 hrun
    nofun
  | succ n ih =>
    rw [readMany_succ] at hrun
    obtain ⟨first, middle, hfirst, hrest⟩ := Step.bind_eq_ok_iff.1 hrun
    obtain ⟨others, hothers, rfl⟩ := Step.map_eq_ok_iff.1 hrest
    refine List.forall_mem_cons.2 ⟨.of_ok hfirst, fun a ha => ?_⟩
    exact .of_covers (hitem.covers hfirst) (ih hothers a ha)

theorem givesUnder_of_mapM {step : α → Reader β} {items : List α}
    (hstep : ∀ a ∈ items, TakesPrefix (step a)) {source after : Source} {values : List β}
    (hrun : items.mapM step source = .ok values after) :
    values.length = items.length ∧
      ∀ entry ∈ items.zip values, GivesUnder source (step entry.1) entry.2 := by
  induction items generalizing source values with
  | nil =>
    obtain ⟨rfl, _⟩ := Step.pure_eq_ok_iff.1 hrun
    exact ⟨rfl, nofun⟩
  | cons a items ih =>
    rw [List.mapM_cons] at hrun
    obtain ⟨value, middle, hvalue, hrest⟩ := Step.bind_eq_ok_iff.1 hrun
    obtain ⟨others, hothers, rfl⟩ := Step.map_eq_ok_iff.1 hrest
    obtain ⟨hlength, hgives⟩ := ih (fun b hb => hstep b (by simp [hb])) hothers
    refine ⟨by rw [List.length_cons, List.length_cons, hlength], ?_⟩
    rw [List.zip_cons_cons]
    refine List.forall_mem_cons.2 ⟨.of_ok hvalue, fun entry hentry => ?_⟩
    exact .of_covers ((hstep a (by simp)).covers hvalue) (hgives entry hentry)

/-- A counted run has no more items than allowed, and no more than memory can hold. -/
theorem items_of_takeCounted {item : Reader α} (hitem : TakesPrefix item) {itemSize limit : Nat}
    {source after : Source} {items : List α}
    (hrun : takeCounted itemSize limit item source = .ok items after) :
    items.length ≤ limit ∧ items.length ≤ maxItems itemSize ∧
      (itemSize ≠ 0 → items.length ≤ source.bytes.length) ∧
        ∀ a ∈ items, GivesUnder source item a := by
  obtain ⟨count, middle, hcount, hitems⟩ := Step.bind_eq_ok_iff.1 hrun
  have hcovers := (takesPrefix_congruence.takeItemCount itemSize limit).covers hcount
  obtain ⟨_, hlimit, _⟩ := bytes_of_takeItemCount hcount
  obtain ⟨hmemory, hroom⟩ := room_of_takeItemCount hcount
  rw [length_of_readMany hitems]
  refine ⟨hlimit, hmemory, fun hsize => Nat.le_trans (hroom hsize) hcovers.length_le, ?_⟩
  exact fun a ha => .of_covers hcovers (givesUnder_of_readMany hitem hitems a ha)

theorem length_of_takeCountedSpan {source after : Source} {bytes : List UInt8}
    (hrun : takeCountedSpan source = .ok bytes after) : bytes.length ≤ maxItems 1 := by
  obtain ⟨count, middle, hcount, hread⟩ := Step.bind_eq_ok_iff.1 hrun
  obtain ⟨_, hlimit, _⟩ := bytes_of_takeCount hcount
  rw [readSpan_eq_read] at hread
  rwa [length_of_read hread]

theorem size_of_takeText {source after : Source} {s : String}
    (hrun : takeText source = .ok s after) : s.utf8ByteSize ≤ maxItems 1 := by
  obtain ⟨bytes, middle, hspan, hmatch⟩ := Step.bind_eq_ok_iff.1 hrun
  cases htext : textOfBytes? bytes with
  | none =>
    rw [htext] at hmatch
    cases hmatch
  | some text =>
    rw [htext] at hmatch
    obtain ⟨rfl, rfl⟩ := Step.pure_eq_ok_iff.1 hmatch
    have hlength := length_of_takeCountedSpan hspan
    rwa [← textOfBytes?_eq_some_iff.1 htext] at hlength

theorem length_of_takeBits {source after : Source} {bits : BitSeq}
    (hrun : BitSeq.take source = .ok bits after) : bits.length ≤ maxItems 1 := by
  rw [BitSeq.take_eq] at hrun
  obtain ⟨count, middle, hcount, hneeds⟩ := Step.bind_eq_ok_iff.1 hrun
  obtain ⟨_, hlimit, _⟩ := bytes_of_takeCount hcount
  obtain ⟨_, same, _, hreads⟩ := Step.bind_eq_ok_iff.1 hneeds
  obtain ⟨bytes, last, _, hmatch⟩ := Step.bind_eq_ok_iff.1 hreads
  cases hbits : BitSeq.ofPacked? count bytes with
  | none =>
    rw [hbits] at hmatch
    cases hmatch
  | some packed =>
    rw [hbits] at hmatch
    obtain ⟨rfl, _⟩ := Step.pure_eq_ok_iff.1 hmatch
    rwa [(fields_of_ofPacked? hbits).1]

theorem contains_of_takeCompact {t : IntegerType} {source after : Source} {n : Int}
    (hrun : takeCompact t source = .ok n after) : t.contains n = true := by
  obtain ⟨m, _, rfl, hcontains, _⟩ := bytes_of_takeCompact hrun
  exact hcontains

theorem ofRepr?_of_takeCoded {coding : IntegerCoding α} {source after : Source} {a : α}
    (hrun : coding.take source = .ok a after) : ∃ n, coding.ofRepr? n = some a := by
  obtain ⟨n, middle, _, hmatch⟩ := Step.bind_eq_ok_iff.1 hrun
  cases hvalue : coding.ofRepr? n with
  | none =>
    rw [hvalue] at hmatch
    cases hmatch
  | some value =>
    rw [hvalue] at hmatch
    obtain ⟨rfl, _⟩ := Step.pure_eq_ok_iff.1 hmatch
    exact ⟨n, hvalue⟩

end Reader

/-- The schema of the items that are counted in a value of the schema. Those of a map are its
    entries. -/
def Schema.counted? {ι ω : Type} : Schema ι ω → Option (Schema ι ω)
  | sequence _ item => some item
  | set _ item => some item
  | map _ key value => some (tuple [key, value])
  | _ => none

namespace Definitions

open Reader

variable {ι : Type} {defs : Definitions ι Empty}

/-- What is counted in a value, its parts aside, is no more than memory can hold. -/
def Holds (defs : Definitions ι Empty) : Schema ι Empty → Value → Prop
  | .text, .text s => s.utf8ByteSize ≤ maxItems 1
  | .blob, .blob bytes => bytes.length ≤ maxItems 1
  | .bits, .bits b => b.length ≤ maxItems 1
  | .sequence _ item, .list vs => vs.length ≤ maxItems (item.size defs.layout)
  | .set _ item, .list vs => vs.length ≤ maxItems (item.size defs.layout)
  | .map _ key value, .list vs => vs.length ≤ maxItems ((Schema.tuple [key, value]).size defs.layout)
  | _, _ => True

/-- What is known of a value that was read: it has the form that its schema asks for, holds no more
    than memory can, and is made of parts that were read. -/
structure WellRead (defs : Definitions ι Empty) (s : Schema ι Empty) (source : Source) (v : Value) :
    Prop where
  admits : s.Admits v
  holds : defs.Holds s v
  parts : ∀ t w, defs.PartOf s v t w → GivesUnder source (defs.read t) w

variable {source after : Source} {v : Value}

/-- A truth value that was read packed could have been read by itself. -/
theorem wellRead_of_takePacked {content : Schema ι Empty} (hbool : content.isBool = true)
    (hrun : takePacked source = .ok v after) : defs.WellRead (.option content) source v := by
  obtain rfl : content = .bool := by
    cases content with
    | bool => rfl
    | _ => cases hbool
  obtain ⟨byte, middle, hbyte, hmatch⟩ := Step.bind_eq_ok_iff.1 hrun
  have hpos : 0 < source.bytes.length := Nat.zero_lt_of_lt (leads_takeByte hbyte)
  have hgives : ∀ b : Bool, GivesUnder source (defs.read .bool) (.bool b) := by
    intro b
    refine ⟨source.withBytes [if b then 1 else 0], source.withBytes [], ⟨?_, ?_⟩, ?_⟩
    · rw [Source.scheme_withBytes]
    · rw [Source.bytes_withBytes]
      exact hpos
    · rw [← readWith_read]
      refine Step.map_eq_ok_iff.2 ⟨b, ?_, rfl⟩
      rw [takeBool, Step.bind_of_ok (takeByte_of_cons (Source.bytes_withBytes _ _)),
        Source.withBytes_withBytes]
      cases b <;> rfl
  rcases hnumber : byte.toNat with _ | _ | _ | other
  all_goals rw [hnumber] at hmatch
  · obtain ⟨rfl, _⟩ := Step.pure_eq_ok_iff.1 hmatch
    exact ⟨trivial, trivial, nofun⟩
  · obtain ⟨rfl, _⟩ := Step.pure_eq_ok_iff.1 hmatch
    refine ⟨trivial, trivial, ?_⟩
    rintro _ _ ⟨⟩
    exact hgives true
  · obtain ⟨rfl, _⟩ := Step.pure_eq_ok_iff.1 hmatch
    refine ⟨trivial, trivial, ?_⟩
    rintro _ _ ⟨⟩
    exact hgives false
  · cases hmatch

/-- The entries of a map are among those that were read. -/
theorem wellRead_map {keys : Keying} {key value : Schema ι Empty}
    (hrun : defs.read (.map keys key value) source = .ok v after) :
    defs.WellRead (.map keys key value) source v := by
  rw [read_map] at hrun
  obtain ⟨entries, hentries, rfl⟩ := Step.map_eq_ok_iff.1 hrun
  have htakes : ∀ t, TakesPrefix (defs.read t) := defs.takesPrefix_read
  have hpair : TakesPrefix (do
      let k ← defs.read key
      let w ← defs.read value
      return (k, w)) :=
    (htakes key).bind fun k => (htakes value).bind fun w => .pure (k, w)
  obtain ⟨_, hmemory, _, hgives⟩ := items_of_takeCounted hpair hentries
  have htable := tabulates_mapOfEntries keys.order entries
  have hlength := htable.length_le
  rw [List.length_map] at hlength
  -- The entries of the map are among those that were read.
  have hmem : ∀ {k w}, Value.list [k, w] ∈ (keys.order.mapOfEntries entries).map Value.ofEntry →
      GivesUnder source (defs.read key) k ∧ GivesUnder source (defs.read value) w := by
    intro k w hentry
    obtain ⟨⟨k', w'⟩, hin, heq⟩ := List.mem_map.1 (htable.subset hentry)
    obtain ⟨rfl, rfl⟩ : k' = k ∧ w' = w := by simpa [Value.ofEntry] using heq
    exact (hgives _ hin).pair (htakes key)
  refine ⟨⟨keys.order.mapOfEntries entries, rfl, List.pairwise_map.1 htable.ascending⟩,
    Nat.le_trans (by rwa [List.length_map] at hlength ⊢) hmemory, ?_⟩
  intro t w hpart
  cases hpart with
  | key hentry => exact (hmem hentry).1
  | value hentry => exact (hmem hentry).2

/-- The coded fields of a record are what was read for them. -/
theorem wellRead_record {labels : Labels} {selection : Selection} {fields : List (Schema ι Empty)}
    (hnodup : selection.order.Nodup) (hrange : ∀ i ∈ selection.order, i < fields.length)
    (hrun : defs.read (.record labels selection fields) source = .ok v after) :
    defs.WellRead (.record labels selection fields) source v := by
  rw [read_record] at hrun
  obtain ⟨vs, hvs, rfl⟩ := Step.map_eq_ok_iff.1 hrun
  have hreadAt : ∀ i, TakesPrefix (defs.readAt fields i) := by
    intro i
    rw [readAt]
    cases fields[i]? with
    | none => exact .throw _
    | some field => exact defs.takesPrefix_read field
  obtain ⟨hlength, hgives⟩ := givesUnder_of_mapM (fun i _ => hreadAt i) hvs
  refine ⟨by simp only [Schema.Admits, Value.length_place, Selection.length_blank], trivial, ?_⟩
  intro t w hpart
  cases hpart with
  | field hi hfield hw =>
    obtain ⟨_, hentry⟩ := exists_mem_zip hlength hi
    rw [selection.getElem?_place_blank _ hnodup hrange hentry] at hw
    obtain rfl := Option.some.inj hw
    have hread := hgives _ hentry
    rwa [readAt, hfield] at hread

theorem wellRead_of_read {s : Schema ι Empty} (hadmissible : s.Admissible)
    (hrun : defs.read s source = .ok v after) : defs.WellRead s source v := by
  have htakes : ∀ t, TakesPrefix (defs.read t) := defs.takesPrefix_read
  cases s with
  | unit =>
    rw [← readWith_read] at hrun
    obtain ⟨rfl, rfl⟩ := Step.pure_eq_ok_iff.1 hrun
    exact ⟨rfl, trivial, nofun⟩
  | bool =>
    rw [← readWith_read] at hrun
    obtain ⟨b, _, rfl⟩ := Step.map_eq_ok_iff.1 hrun
    exact ⟨trivial, trivial, nofun⟩
  | int t =>
    rw [← readWith_read] at hrun
    obtain ⟨n, hn, rfl⟩ := Step.map_eq_ok_iff.1 hrun
    obtain ⟨bytes, hread, rfl⟩ := Step.map_eq_ok_iff.1 hn
    exact ⟨t.contains_ofBytes (length_of_read hread), trivial, nofun⟩
  | wide width =>
    rw [← readWith_read] at hrun
    obtain ⟨n, _, rfl⟩ := Step.map_eq_ok_iff.1 hrun
    have hlt := Int.ofNat_lt.2 n.val_lt
    rw [Int.natCast_pow] at hlt
    exact ⟨⟨Int.natCast_nonneg _, hlt⟩, trivial, nofun⟩
  | compact t =>
    rw [← readWith_read] at hrun
    obtain ⟨n, hn, rfl⟩ := Step.map_eq_ok_iff.1 hrun
    exact ⟨contains_of_takeCompact hn, trivial, nofun⟩
  | text =>
    rw [← readWith_read] at hrun
    obtain ⟨s, hs, rfl⟩ := Step.map_eq_ok_iff.1 hrun
    exact ⟨trivial, size_of_takeText hs, nofun⟩
  | blob =>
    rw [← readWith_read] at hrun
    obtain ⟨bytes, hbytes, rfl⟩ := Step.map_eq_ok_iff.1 hrun
    exact ⟨trivial, length_of_takeCountedSpan hbytes, nofun⟩
  | bits =>
    rw [← readWith_read] at hrun
    obtain ⟨bits, hbits, rfl⟩ := Step.map_eq_ok_iff.1 hrun
    exact ⟨trivial, length_of_takeBits hbits, nofun⟩
  | option content =>
    by_cases hbool : content.isBool = true
    · rw [read_packed defs hbool] at hrun
      exact wellRead_of_takePacked hbool hrun
    · rw [read_option defs (eq_false_of_ne_true hbool)] at hrun
      obtain ⟨there, middle, hthere, hrest⟩ := Step.bind_eq_ok_iff.1 hrun
      cases there with
      | true =>
        obtain ⟨w, hw, rfl⟩ := Step.map_eq_ok_iff.1 hrest
        refine ⟨trivial, trivial, ?_⟩
        rintro _ _ ⟨⟩
        exact .of_covers (takesPrefix_congruence.takeBool.covers hthere) (.of_ok hw)
      | false =>
        obtain ⟨rfl, _⟩ := Step.pure_eq_ok_iff.1 hrest
        exact ⟨trivial, trivial, nofun⟩
  | result success failure =>
    rw [read_result] at hrun
    obtain ⟨tag, middle, htag, hrest⟩ := Step.bind_eq_ok_iff.1 hrun
    have hcovers := (takesPrefix_congruence.takeTag 2).covers htag
    rcases tag with _ | tag
    · obtain ⟨w, hw, rfl⟩ := Step.map_eq_ok_iff.1 hrest
      refine ⟨Nat.zero_lt_two, trivial, ?_⟩
      rintro _ _ ⟨⟩
      exact .of_covers hcovers (.of_ok hw)
    · obtain ⟨w, hw, rfl⟩ := Step.map_eq_ok_iff.1 hrest
      refine ⟨Nat.one_lt_two, trivial, ?_⟩
      rintro _ _ ⟨⟩
      exact .of_covers hcovers (.of_ok hw)
  | sequence kind item =>
    rw [read_sequence] at hrun
    obtain ⟨vs, hvs, rfl⟩ := Step.map_eq_ok_iff.1 hrun
    obtain ⟨hlimit, hmemory, _, hgives⟩ := items_of_takeCounted (htakes item) hvs
    refine ⟨hlimit, hmemory, ?_⟩
    rintro _ _ ⟨⟩
    exact hgives _ ‹_›
  | set keys item =>
    rw [read_set] at hrun
    obtain ⟨vs, hvs, rfl⟩ := Step.map_eq_ok_iff.1 hrun
    obtain ⟨_, hmemory, _, hgives⟩ := items_of_takeCounted (htakes item) hvs
    have htable := tabulates_setOfList keys.order vs
    refine ⟨htable.ascending, Nat.le_trans htable.length_le hmemory, ?_⟩
    rintro _ _ ⟨⟩
    exact hgives _ (htable.subset ‹_›)
  | map keys key value =>
    exact wellRead_map hrun
  | array count item =>
    rw [read_array] at hrun
    obtain ⟨vs, hvs, rfl⟩ := Step.map_eq_ok_iff.1 hrun
    refine ⟨length_of_readMany hvs, trivial, ?_⟩
    rintro _ _ ⟨⟩
    exact givesUnder_of_readMany (htakes item) hvs _ ‹_›
  | tuple items =>
    rw [read_tuple] at hrun
    obtain ⟨vs, hvs, rfl⟩ := Step.map_eq_ok_iff.1 hrun
    obtain ⟨hlength, hgives⟩ := givesUnder_of_mapM (fun t _ => htakes t) hvs
    refine ⟨hlength, trivial, ?_⟩
    intro t w hpart
    cases hpart with
    | component hitem hw =>
      have hentry : (t, w) ∈ items.zip vs :=
        List.mem_of_getElem? (List.getElem?_zip_eq_some.2 ⟨hitem, hw⟩)
      exact hgives _ hentry
  | pointer pointee =>
    rw [read_pointer] at hrun
    refine ⟨trivial, trivial, ?_⟩
    rintro _ _ ⟨⟩
    exact .of_ok hrun
  | weak writeOnly _ => exact writeOnly.elim
  | encoded writeOnly => exact writeOnly.elim
  | record labels selection fields =>
    exact wellRead_record hadmissible.1 hadmissible.2 hrun
  | sum names alternatives =>
    rw [read_sum] at hrun
    obtain ⟨tag, middle, htag, hrest⟩ := Step.bind_eq_ok_iff.1 hrun
    obtain ⟨w, hw, rfl⟩ := Step.map_eq_ok_iff.1 hrest
    refine ⟨lt_of_takeTag htag, trivial, ?_⟩
    intro t w hpart
    cases hpart with
    | alternative hget =>
      rw [readAt, hget] at hw
      exact .of_covers ((takesPrefix_congruence.takeTag _).covers htag) (.of_ok hw)
  | enumeration e =>
    rw [← readWith_read] at hrun
    obtain ⟨i, hi, rfl⟩ := Step.map_eq_ok_iff.1 hrun
    obtain ⟨n, hindex⟩ := ofRepr?_of_takeCoded hi
    obtain ⟨hlt, _⟩ := List.findIdx?_eq_some_iff_getElem.1 hindex
    exact ⟨⟨hlt, rfl⟩, trivial, fun _ _ hpart => by cases hpart⟩
  | range r =>
    rw [← readWith_read] at hrun
    obtain ⟨n, hn, rfl⟩ := Step.map_eq_ok_iff.1 hrun
    obtain ⟨m, hvalue⟩ := ofRepr?_of_takeCoded hn
    obtain rfl := IntegerRange.eq_of_ofRepr? hvalue
    exact ⟨(Option.ite_none_right_eq_some.1 hvalue).1, trivial, fun _ _ hpart => by cases hpart⟩
  | ref name =>
    rw [read_ref] at hrun
    refine ⟨trivial, trivial, ?_⟩
    rintro _ _ ⟨⟩
    exact .of_ok hrun

/-- Everything within a value that is read was read. -/
theorem givesUnder_of_within {s t : Schema ι Empty} {v w : Value} (hwell : defs.WellFormed s)
    (hwithin : defs.Within s v t w) {source : Source} (hgives : GivesUnder source (defs.read s) v) :
    GivesUnder source (defs.read t) w := by
  induction hwithin generalizing source with
  | refl _ _ => exact hgives
  | step hpart _ ih =>
    obtain ⟨before, after, hbefore, hrun⟩ := hgives
    have hparts := (wellRead_of_read (hwell _ (.refl _)) hrun).parts
    exact .of_covers hbefore (ih (hpart.forall_occurs hwell) (hparts _ _ hpart))

/-- What is read for a type is a value of the type, and memory can hold it. -/
theorem hasType_of_read {s : Schema ι Empty} {v : Value} (hwell : defs.WellFormed s)
    {source : Source} (hgives : GivesUnder source (defs.read s) v) :
    defs.HasType s v ∧ ∀ t w, defs.Within s v t w → defs.Holds t w := by
  have hall : ∀ t w, defs.Within s v t w → t.Admits w ∧ defs.Holds t w := by
    intro t w hwithin
    obtain ⟨before, after, _, hrun⟩ := givesUnder_of_within hwell hwithin hgives
    have hread := wellRead_of_read (hwell t hwithin.occurs) hrun
    exact ⟨hread.admits, hread.holds⟩
  exact ⟨fun t w hwithin => (hall t w hwithin).1, fun t w hwithin => (hall t w hwithin).2⟩

end Definitions

end Scale
