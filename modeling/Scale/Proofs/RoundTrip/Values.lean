import Scale.Catalogue
import Scale.Proofs.RoundTrip.Counted

namespace Scale

/-- The schema of the items that are kept in order, if the values of the schema are sets or maps. -/
def Schema.key? {ι ω : Type} : Schema ι ω → Option (Schema ι ω)
  | set _ item => some item
  | map _ key _ => some key
  | _ => none

namespace Definitions

variable {ι : Type} {defs : Definitions ι Empty} {scheme : Scheme}

/-- What is counted in a value, its parts aside, is no more than what reading expects. -/
def Fits (defs : Definitions ι Empty) (scheme : Scheme) : Schema ι Empty → Value → Prop
  | .text, .text s => s.utf8ByteSize ≤ maxItems 1
  | .blob, .blob bytes => bytes.length ≤ maxItems 1
  | .bits, .bits b => b.length ≤ maxItems 1
  | .sequence _ item, .list vs => defs.Countable scheme item vs
  | .set _ item, .list vs => defs.Countable scheme item vs
  | .map _ key value, .list vs => defs.Countable scheme (.tuple [key, value]) vs
  | _, _ => True

/-- The items of sets and the keys of maps have no fields that are not coded. -/
def KeysCoded (defs : Definitions ι Empty) (s : Schema ι Empty) : Prop :=
  ∀ t, defs.Occurs s t → ∀ key, t.key? = some key → ∀ u, defs.Occurs key u → u.FullyCoded

/-- Every value of a type is read back from what is written for it, as long as its counts are such
    as reading expects. -/
theorem roundTrips {s : Schema ι Empty} {v : Value} (hwell : defs.WellFormed s)
    (htype : defs.HasType s v) (hfits : ∀ t w, defs.Within s v t w → defs.Fits scheme t w)
    (hkeys : defs.KeysCoded s) : defs.RoundTrips scheme s v := by
  -- A recursive type hands the same value on to a larger schema, so the induction is on both.
  induction s, v using defs.valueInduction with
  | step s v ih =>
    have hparts : ∀ t w, defs.PartOf s v t w → defs.RoundTrips scheme t w := fun t w hpart =>
      ih t w hpart (hpart.forall_occurs hwell) (forall_within_part htype hpart)
        (forall_within_part hfits hpart) (hpart.forall_occurs hkeys)
    have hcoded : ∀ t w, defs.PartOf s v t w → s.key? = some t → defs.forget t w = w :=
      fun t w hpart hkey =>
        forget_eq_self (hkeys s (.refl s) t hkey) (forall_within_part htype hpart)
    have hadmissible := hwell _ (.refl s)
    have hform := htype _ _ (.refl s v)
    have hfit := hfits _ _ (.refl s v)
    cases s with
    | unit =>
      obtain rfl : v = .unit := hform
      exact roundTrips_unit
    | bool =>
      cases v with
      | bool b => exact roundTrips_bool b
      | _ => cases hform
    | int t =>
      cases v with
      | int n => exact roundTrips_int hform
      | _ => cases hform
    | wide width =>
      cases v with
      | int n => exact roundTrips_wide hform.1 hform.2
      | _ => cases hform
    | compact t =>
      cases v with
      | int n => exact roundTrips_compact hform
      | _ => cases hform
    | text =>
      cases v with
      | text s => exact roundTrips_text hfit
      | _ => cases hform
    | blob =>
      cases v with
      | blob bytes => exact roundTrips_blob hfit
      | _ => cases hform
    | bits =>
      cases v with
      | bits b => exact roundTrips_bits hfit
      | _ => cases hform
    | option content =>
      by_cases hbool : content.isBool = true
      · exact roundTrips_packed hbool htype
      · have hplain := eq_false_of_ne_true hbool
        cases v with
        | absent => exact roundTrips_absent hplain
        | present w => exact roundTrips_present hplain (hparts content w .content)
        | _ => cases hform
    | result success failure =>
      cases v with
      | tagged i w =>
        match i with
        | 0 => exact roundTrips_success (hparts success w .success)
        | 1 => exact roundTrips_failure (hparts failure w .failure)
        | i + 2 => exact absurd hform (Nat.not_lt.2 (Nat.le_add_left 2 i))
      | _ => cases hform
    | sequence kind item =>
      cases v with
      | list vs => exact roundTrips_sequence hform hfit fun w hw => hparts item w (.item hw)
      | _ => cases hform
    | set keys item =>
      cases v with
      | list vs =>
        exact roundTrips_set hform hfit (fun w hw => hcoded item w (.member hw) rfl)
          fun w hw => hparts item w (.member hw)
      | _ => cases hform
    | map keys key value =>
      cases v with
      | list vs =>
        obtain ⟨entries, rfl, hsorted⟩ := hform
        have hmem : ∀ entry ∈ entries, Value.list [entry.1, entry.2] ∈
            entries.map fun entry => Value.list [entry.1, entry.2] :=
          fun _ hentry => List.mem_map_of_mem hentry
        refine roundTrips_map hsorted hfit (fun entry hentry => ?_) fun entry hentry => ?_
        · exact hcoded key _ (.key (hmem entry hentry)) rfl
        · exact ⟨hparts key _ (.key (hmem entry hentry)),
            hparts value _ (.value (hmem entry hentry))⟩
      | _ => cases hform
    | array count item =>
      cases v with
      | list vs =>
        obtain rfl : vs.length = count := hform
        exact roundTrips_array fun w hw => hparts item w (.element hw)
      | _ => cases hform
    | tuple items =>
      cases v with
      | list vs =>
        exact roundTrips_tuple hform fun i item w hitem hw => hparts item w (.component hitem hw)
      | _ => cases hform
    | pointer pointee => exact roundTrips_pointer (hparts pointee v .pointee)
    | weak writeOnly pointee => exact writeOnly.elim
    | encoded writeOnly => exact writeOnly.elim
    | record labels selection fields =>
      cases v with
      | list vs =>
        obtain ⟨hnodup, hrange⟩ := hadmissible
        refine roundTrips_record hnodup hrange hform fun i hi field w hfield hw => ?_
        exact hparts field w (.field hi hfield hw)
      | _ => cases hform
    | sum names alternatives =>
      cases v with
      | tagged i w =>
        have hget : alternatives[i]? = some alternatives[i] := List.getElem?_eq_getElem hform
        exact roundTrips_sum hadmissible hget (hparts _ w (.alternative hget))
      | _ => cases hform
    | enumeration e =>
      cases v with
      | tagged i payload =>
        obtain ⟨hlt, rfl⟩ := hform
        exact roundTrips_enumeration hadmissible hlt
      | _ => cases hform
    | range r =>
      cases v with
      | int n => exact roundTrips_range hadmissible.1 hadmissible.2 hform
      | _ => cases hform
    | ref name =>
      rw [RoundTrips, write_ref, read_ref, forget_ref]
      exact hparts _ v .body

/-- Decoding gives back every value that can be encoded, except that fields that are not coded have
    their defaults, and leaves just the bytes that follow its own. -/
theorem read_encodeFull {s : Schema ι Empty} {v : Value} {bytes : Array UInt8} {source : Source}
    {rest : List UInt8} (hwell : defs.WellFormed s) (htype : defs.HasType s v)
    (hfits : ∀ t w, defs.Within s v t w → defs.Fits source.scheme t w) (hkeys : defs.KeysCoded s)
    (hencode : defs.encodeFull source.scheme s v = .ok bytes)
    (hbytes : source.bytes = bytes.toList ++ rest) :
    defs.read s source = .ok (defs.forget s v) (source.withBytes rest) :=
  (roundTrips hwell htype hfits hkeys).yields (defs.encodeFull_eq_ok_iff.1 hencode) source rest rfl
    hbytes

/-- Two grades, the higher one declared first. -/
def grade : Enumeration :=
  .ofDeclared .u8 [("High", some 2), ("Low", some 1)]

open Catalogue in
/-- A set of grades in the order of their integers, which is not that of the declaration. -/
def grades : Schema Recursive Empty :=
  .set ⟨.sorted, .reverse .structural⟩ (.enumeration grade)

open Catalogue in
/-- Grades, a list that is not coded and has one item by default, and a byte. -/
def roster : Schema Recursive Empty :=
  .record (.names ["grades", "cache", "last"]) ⟨[0, 2], fun _ => .list [.int 0, .absent]⟩
    [grades, .ref .list, u8]

/-- Both grades, the lower one first. -/
def bothGrades : Value :=
  .list [.tagged 1 .unit, .tagged 0 .unit]

/-- Both grades, a list of two items, and a byte. -/
def filledRoster : Value :=
  .list [bothGrades, .list [.int 5, .present (.list [.int 6, .absent])], .int 7]

open Catalogue in
theorem forall_occurs_roster {P : Schema Recursive Empty → Prop} (hroster : P roster)
    (hgrades : P grades) (hgrade : P (.enumeration grade)) (hbyte : P u8) :
    ∀ t, definitions.Occurs roster t → P t := by
  have hset : ∀ t, definitions.Occurs grades t → P t :=
    forall_occurs_of_parts nofun hgrades
      (List.forall_mem_singleton.2 (forall_occurs_of_parts nofun hgrade nofun))
  -- The list is no part, as it is not coded.
  exact forall_occurs_of_parts nofun hroster (List.forall_mem_cons.2
    ⟨hset, List.forall_mem_singleton.2 (forall_occurs_of_parts nofun hbyte nofun)⟩)

open Catalogue in
theorem forall_within_roster {P : Schema Recursive Empty → Value → Prop}
    (hroster : P roster filledRoster) (hgrades : P grades bothGrades)
    (hlow : P (.enumeration grade) (.tagged 1 .unit))
    (hhigh : P (.enumeration grade) (.tagged 0 .unit)) (hlast : P u8 (.int 7)) :
    ∀ t w, definitions.Within roster filledRoster t w → P t w := by
  have hset : ∀ t w, definitions.Within grades bothGrades t w → P t w := by
    refine forall_within_of_parts hgrades fun t w hpart => ?_
    cases hpart with
    | member hw =>
      obtain rfl | hw := List.mem_cons.1 hw
      · exact forall_within_of_parts hlow nofun
      · obtain rfl := List.mem_singleton.1 hw
        exact forall_within_of_parts hhigh nofun
  refine forall_within_of_parts hroster fun t w hpart => ?_
  cases hpart with
  | field hi hfield hw =>
    obtain rfl | hi := List.mem_cons.1 hi
    · obtain rfl := Option.some.inj hfield
      obtain rfl := Option.some.inj hw
      exact hset
    · obtain rfl := List.mem_singleton.1 hi
      obtain rfl := Option.some.inj hfield
      obtain rfl := Option.some.inj hw
      exact forall_within_of_parts hlast nofun

open Catalogue in
theorem countable_bothGrades : definitions.Countable .classic (.enumeration grade)
    [.tagged 1 .unit, .tagged 0 .unit] := by
  refine ⟨by decide, fun _ v hv bytes hencode => ?_⟩
  rintro rfl
  obtain rfl | hv := List.mem_cons.1 hv
  · cases hencode
  · obtain rfl := List.mem_singleton.1 hv
    cases hencode

open Catalogue in
/-- The list that is not coded is read as the default of its type, and the grades in their order. A byte
    of something else follows. -/
theorem read_encodeFull_roster :
    definitions.read roster (.decoder .classic (.slice [8, 1, 2, 7, 99])) =
      .ok (.list [bothGrades, .list [.int 0, .absent], .int 7])
        (.decoder .classic (.slice [99])) := by
  have hwell : definitions.WellFormed roster :=
    forall_occurs_roster ⟨by decide, by decide⟩ trivial ⟨by decide, by decide⟩ trivial
  have htype : definitions.HasType roster filledRoster :=
    forall_within_roster rfl (List.pairwise_pair.2 rfl) ⟨by decide, rfl⟩ ⟨by decide, rfl⟩ rfl
  have hfits : ∀ t w, definitions.Within roster filledRoster t w → definitions.Fits .classic t w :=
    forall_within_roster trivial countable_bothGrades trivial trivial trivial
  have hkeys : definitions.KeysCoded roster := by
    refine forall_occurs_roster nofun ?_ nofun nofun
    rintro key ⟨⟩
    exact forall_occurs_of_parts nofun trivial nofun
  have hencode : definitions.encodeFull .classic roster filledRoster = .ok #[8, 1, 2, 7] := rfl
  have hbytes : (Source.decoder .classic (.slice [8, 1, 2, 7, 99])).bytes =
      (#[8, 1, 2, 7] : Array UInt8).toList ++ [99] := rfl
  exact read_encodeFull hwell htype hfits hkeys hencode hbytes

end Definitions

end Scale
