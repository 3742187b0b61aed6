import Scale.Proofs.Forgetting.Equations
import Scale.Proofs.Reading.Equations
import Scale.Proofs.RoundTrip.Steps
import Scale.Proofs.Value.Place
import Scale.Proofs.Writing.Equations

namespace Scale.Definitions

open Reader Writer

variable {ι : Type} {defs : Definitions ι Empty} {scheme : Scheme}

/-- Reading takes just what is written for the value and gives what forgetting leaves of it. -/
abbrev RoundTrips (defs : Definitions ι Empty) (scheme : Scheme) (s : Schema ι Empty) (v : Value) :
    Prop :=
  Restores scheme (defs.write s v) (defs.read s) (defs.forget s v)

theorem roundTrips_iff {s : Schema ι Empty} {v : Value} : defs.RoundTrips scheme s v ↔
    Restores scheme (s.writeWith (fun name => defs.write (.ref name)) v)
      (s.readWith defs.layout fun name => defs.read (.ref name))
      (s.forgetWith (fun name => defs.forget (.ref name)) v) := by
  rw [writeWith_write, readWith_read, forgetWith_forget]

theorem roundTrips_unit : defs.RoundTrips scheme .unit .unit :=
  roundTrips_iff.2 (Restores.pure Value.unit)

theorem roundTrips_bool (b : Bool) : defs.RoundTrips scheme .bool (.bool b) :=
  roundTrips_iff.2 ((Restores.putBool b).map Value.bool)

theorem roundTrips_int {t : FixedInt} {n : Int} (hcontains : t.contains n = true) :
    defs.RoundTrips scheme (.int t) (.int n) :=
  roundTrips_iff.2 ((Restores.putFixed hcontains).map Value.int)

theorem roundTrips_wide {width : Nat} {n : Int} (hnonneg : 0 ≤ n) (hlt : n < 256 ^ width) :
    defs.RoundTrips scheme (.wide width) (.int n) := by
  obtain ⟨m, rfl⟩ := Int.eq_ofNat_of_zero_le hnonneg
  have hwide : m < 256 ^ width := by
    refine Int.ofNat_lt.1 ?_
    rw [Int.natCast_pow]
    exact hlt
  exact roundTrips_iff.2 ((Restores.putWide ⟨m, hwide⟩).map fun n => Value.int n.val)

theorem roundTrips_compact {t : IntegerType} {n : Int} (hcontains : t.contains n = true) :
    defs.RoundTrips scheme (.compact t) (.int n) :=
  roundTrips_iff.2 ((Restores.putCompact hcontains).map Value.int)

theorem roundTrips_text {s : String} (hmemory : s.utf8ByteSize ≤ maxItems 1) :
    defs.RoundTrips scheme .text (.text s) :=
  roundTrips_iff.2 ((Restores.putText hmemory).map Value.text)

theorem roundTrips_blob {bytes : List UInt8} (hmemory : bytes.length ≤ maxItems 1) :
    defs.RoundTrips scheme .blob (.blob bytes) :=
  roundTrips_iff.2 ((Restores.putCountedSpan hmemory).map Value.blob)

theorem roundTrips_bits {bits : BitSeq} (hmemory : bits.length ≤ maxItems 1) :
    defs.RoundTrips scheme .bits (.bits bits) :=
  roundTrips_iff.2 ((Restores.putBits hmemory).map Value.bits)

theorem roundTrips_enumeration {e : Enumeration} (hadmissible : (Schema.enumeration e).Admissible
    (ι := ι) (ω := Empty)) {i : Nat} (hlt : i < e.alternatives.length) :
    defs.RoundTrips scheme (.enumeration e) (.tagged i .unit) := by
  obtain ⟨hnodup, hrepr⟩ := hadmissible
  have hdiscriminant : e.discriminant? i = some e.alternatives[i].2 := by
    rw [Enumeration.discriminant?, List.getElem?_eq_getElem hlt]
    rfl
  have hnumber := Enumeration.toRepr_of_discriminant? hdiscriminant
  refine roundTrips_iff.2 (Restores.map (Value.tagged · .unit) (Restores.putCoded ?_ ?_))
  · rw [hnumber]
    exact e.repr.contains_wrap _
  · rw [hnumber]
    exact Enumeration.index?_of_nodup hnodup hrepr hdiscriminant

theorem roundTrips_range {r : IntegerRange} (hlow : r.repr.contains r.low = true)
    (hhigh : r.repr.contains r.high = true) {n : Int} (hn : r.low ≤ n ∧ n ≤ r.high) :
    defs.RoundTrips scheme (.range r) (.int n) := by
  refine roundTrips_iff.2 (Restores.map Value.int (Restores.putCoded ?_ ?_))
  · have hfrom := (r.repr.contains_iff.1 hlow).1
    have hto := (r.repr.contains_iff.1 hhigh).2
    exact r.repr.contains_iff.2 ⟨by change r.repr.lower ≤ n; omega, by
      change n < r.repr.lower + r.repr.card; omega⟩
  · exact if_pos hn

theorem roundTrips_packed {content : Schema ι Empty} (hbool : content.isBool = true) {v : Value}
    (htype : defs.HasType (.option content) v) : defs.RoundTrips scheme (.option content) v := by
  cases content with
  | bool =>
    have hform := htype _ _ (.refl _ v)
    rw [RoundTrips, write_packed defs rfl, read_packed defs rfl, ← forgetWith_forget]
    cases v with
    | absent => exact (Restores.putByte 0).finish rfl
    | present w =>
      have hcontent := htype _ _ (.step .content (.refl _ w))
      cases w with
      | bool b =>
        cases b with
        | false => exact (Restores.putByte 2).finish rfl
        | true => exact (Restores.putByte 1).finish rfl
      | _ => cases hcontent
    | _ => cases hform
  | _ => cases hbool

theorem roundTrips_absent {content : Schema ι Empty} (hbool : content.isBool = false) :
    defs.RoundTrips scheme (.option content) .absent := by
  rw [RoundTrips, write_absent defs hbool, read_option defs hbool, ← forgetWith_forget]
  exact (Restores.putBool false).finish rfl

theorem roundTrips_present {content : Schema ι Empty} (hbool : content.isBool = false) {w : Value}
    (hcontent : defs.RoundTrips scheme content w) :
    defs.RoundTrips scheme (.option content) (.present w) := by
  rw [RoundTrips, write_present defs hbool, read_option defs hbool, forget_present]
  exact (Restores.putBool true).bind (hcontent.map Value.present)

theorem roundTrips_success {success failure : Schema ι Empty} {w : Value}
    (hsuccess : defs.RoundTrips scheme success w) :
    defs.RoundTrips scheme (.result success failure) (.tagged 0 w) := by
  rw [RoundTrips, write_success, read_result, forget_success]
  exact (Restores.putTag (by decide) (by decide)).bind (hsuccess.map (Value.tagged 0))

theorem roundTrips_failure {success failure : Schema ι Empty} {w : Value}
    (hfailure : defs.RoundTrips scheme failure w) :
    defs.RoundTrips scheme (.result success failure) (.tagged 1 w) := by
  rw [RoundTrips, write_failure, read_result, forget_failure]
  exact (Restores.putTag (by decide) (by decide)).bind (hfailure.map (Value.tagged 1))

theorem roundTrips_array {item : Schema ι Empty} {vs : List Value}
    (hitems : ∀ v ∈ vs, defs.RoundTrips scheme item v) :
    defs.RoundTrips scheme (.array vs.length item) (.list vs) := by
  rw [RoundTrips, write_array, read_array, forget_array]
  exact (Restores.forM hitems).map Value.list

theorem roundTrips_pointer {pointee : Schema ι Empty} {v : Value}
    (hpointee : defs.RoundTrips scheme pointee v) : defs.RoundTrips scheme (.pointer pointee) v := by
  rw [RoundTrips, write_pointer, read_pointer, forget_pointer]
  exact hpointee

theorem roundTrips_sum {names : List String} {alternatives : List (Schema ι Empty)} {i : Nat}
    {alternative : Schema ι Empty} {w : Value} (hbyte : alternatives.length ≤ 256)
    (hget : alternatives[i]? = some alternative)
    (halternative : defs.RoundTrips scheme alternative w) :
    defs.RoundTrips scheme (.sum names alternatives) (.tagged i w) := by
  have hlt : i < alternatives.length := (List.getElem?_eq_some_iff.1 hget).1
  have hread : defs.readAt alternatives i = defs.read alternative := by
    rw [readAt, hget]
  rw [RoundTrips, write_sum defs names hget, read_sum, forget_sum defs names hget]
  refine (Restores.putTag hlt hbyte).bind ?_
  rw [hread]
  exact halternative.map (Value.tagged i)

theorem roundTrips_tuple {items : List (Schema ι Empty)} {vs : List Value}
    (hlength : vs.length = items.length)
    (hitems : ∀ (i : Nat) item v, items[i]? = some item → vs[i]? = some v →
      defs.RoundTrips scheme item v) : defs.RoundTrips scheme (.tuple items) (.list vs) := by
  have hread : Restores scheme (defs.write (.tuple items) (.list vs)) (items.mapM defs.read)
      (List.zipWith defs.forget items vs) := by
    induction items generalizing vs with
    | nil =>
      have hvs : vs = [] := List.length_eq_zero_iff.1 hlength
      subst hvs
      rw [write_tuple_nil]
      exact Restores.pure []
    | cons item items ih =>
      cases vs with
      | nil => cases hlength
      | cons v vs =>
        have hrest := ih (Nat.succ.inj hlength) fun i => hitems (i + 1)
        rw [write_tuple_cons, List.mapM_cons]
        exact (hitems 0 item v rfl rfl).bind (hrest.map (defs.forget item v :: ·))
  rw [RoundTrips, read_tuple, forget_tuple defs hlength]
  exact hread.map Value.list

/-- The coded fields of a record are read back into their places among the defaults. -/
theorem roundTrips_record {labels : Labels} {selection : Selection} {fields : List (Schema ι Empty)}
    {vs : List Value} (hnodup : selection.order.Nodup)
    (hrange : ∀ i ∈ selection.order, i < fields.length)
    (hlength : vs.length = fields.length)
    (hfields : ∀ i ∈ selection.order, ∀ field v, fields[i]? = some field → vs[i]? = some v →
      defs.RoundTrips scheme field v) :
    defs.RoundTrips scheme (.record labels selection fields) (.list vs) := by
  obtain ⟨ws, hforget, hws⟩ := forget_record defs labels selection hlength
  -- What stands at a position in the end: for coded fields this is also what is read for them.
  let value (i : Nat) : Value := ws[i]?.getD .unit
  have hvalue : ∀ i ∈ selection.order, ∃ field v, fields[i]? = some field ∧ vs[i]? = some v ∧
      ws[i]? = some (value i) ∧ value i = defs.forget field v := by
    intro i hi
    have hlt := hrange i hi
    have hfield : fields[i]? = some fields[i] := List.getElem?_eq_getElem hlt
    have hv : vs[i]? = some vs[i] := List.getElem?_eq_getElem (hlength.symm ▸ hlt)
    have hw : ws[i]? = some (defs.forget fields[i] vs[i]) := by
      rw [hws, hfield, hv]
      exact congrArg some (if_pos hi)
    have hforgotten : value i = defs.forget fields[i] vs[i] := by
      simp only [value, hw, Option.getD_some]
    exact ⟨_, _, hfield, hv, by rw [hforgotten, hw], hforgotten⟩
  have hout : ∀ i, i ∉ selection.order → ws[i]? = (selection.blank fields.length)[i]? := by
    intro i hi
    rw [hws]
    by_cases hlt : i < fields.length
    · have hfield : fields[i]? = some fields[i] := List.getElem?_eq_getElem hlt
      have hv : vs[i]? = some vs[i] := List.getElem?_eq_getElem (hlength.symm ▸ hlt)
      rw [hfield, hv, selection.getElem?_blank _ hlt]
      exact congrArg some (if_neg hi)
    · have hle : fields.length ≤ i := Nat.not_lt.1 hlt
      have hblank : (selection.blank fields.length).length ≤ i := by simpa using hle
      rw [List.getElem?_eq_none hle, List.getElem?_eq_none hblank]
  have hplaced : Value.place selection.order (selection.order.map value)
      (selection.blank fields.length) = ws := by
    refine Value.place_map_eq hnodup (by simpa using hrange) (fun i hi => ?_) hout
    obtain ⟨_, _, _, _, hw, _⟩ := hvalue i hi
    exact hw
  have hread : Restores scheme (defs.write (.record labels selection fields) (.list vs))
      (selection.order.mapM (defs.readAt fields)) (selection.order.map value) := by
    rw [write_record]
    refine Restores.mapM fun i hi => ?_
    obtain ⟨field, v, hfield, hv, _, hforgotten⟩ := hvalue i hi
    rw [hfield, hv, readAt, hfield, hforgotten]
    exact hfields i hi field v hfield hv
  rw [RoundTrips, read_record, hforget, ← hplaced]
  exact hread.map fun vs => Value.list (Value.place selection.order vs (selection.blank fields.length))

end Scale.Definitions
