import Scale.Proofs.RoundTrip.Parts

namespace Scale

open Writer Reader

/-- Where what both steps emit begins the same bytes, the fact holds and the same bytes follow. -/
def Separates (scheme : Scheme) (put put' : Writer Unit) (fact : Prop) : Prop :=
  ∀ ⦃bytes bytes' rest rest'⦄, Emits scheme put bytes → Emits scheme put' bytes' →
    bytes ++ rest = bytes' ++ rest' → fact ∧ rest = rest'

namespace Separates

variable {α β : Type} {scheme : Scheme} {fact other : Prop}

theorem imp {put put' : Writer Unit} (hputs : Separates scheme put put' fact)
    (himp : fact → other) : Separates scheme put put' other := by
  intro bytes bytes' rest rest' hemits hemits' heq
  obtain ⟨hfact, hrest⟩ := hputs hemits hemits' heq
  exact ⟨himp hfact, hrest⟩

theorem self {put : Writer Unit} (hfact : fact) : Separates scheme put put fact := by
  intro bytes bytes' rest rest' hemits hemits' heq
  rw [hemits.unique hemits'] at heq
  exact ⟨hfact, List.append_cancel_left heq⟩

theorem seq {first first' second second' : Writer Unit} (hfirst : Uniform first)
    (hfirst' : Uniform first') (hsecond : Uniform second) (hsecond' : Uniform second')
    (hputs : Separates scheme first first' fact)
    (hnext : fact → Separates scheme second second' other) :
    Separates scheme (first >>= fun _ => second) (first' >>= fun _ => second') other := by
  intro bytes bytes' rest rest' hemits hemits' heq
  obtain ⟨xs, ys, rfl, hxs, hys⟩ := hemits.of_seq hfirst hsecond
  obtain ⟨xs', ys', rfl, hxs', hys'⟩ := hemits'.of_seq hfirst' hsecond'
  rw [List.append_assoc, List.append_assoc] at heq
  obtain ⟨hfact, hlater⟩ := hputs hxs hxs' heq
  exact hnext hfact hys hys' hlater

/-- What one step restores from two others separates these. -/
theorem of_restores {put put' : Writer Unit} {step : Reader α} {a a' : α}
    (hput : Restores scheme put step a) (hput' : Restores scheme put' step a') :
    Separates scheme put put' (a = a') := by
  intro bytes bytes' rest rest' hemits hemits' heq
  let source := Source.decoder scheme (.slice (bytes ++ rest))
  have hrun := hput.yields hemits source rest rfl rfl
  have hrun' := hput'.yields hemits' source rest' rfl heq
  obtain ⟨hvalue, hafter⟩ := EStateM.Result.ok.inj (hrun.symm.trans hrun')
  refine ⟨hvalue, ?_⟩
  simpa only [Source.bytes_withBytes] using congrArg Source.bytes hafter

theorem putByte (byte byte' : UInt8) :
    Separates scheme (putByte byte) (putByte byte') (byte = byte') :=
  of_restores (Restores.putByte byte) (Restores.putByte byte')

theorem putCount (count count' : Nat) :
    Separates scheme (putCount count) (putCount count') (count = count') := by
  intro bytes bytes' rest rest' hemits hemits' heq
  obtain ⟨hlt, rfl⟩ := emits_putCount_iff.1 hemits
  obtain ⟨hlt', rfl⟩ := emits_putCount_iff.1 hemits'
  exact Scheme.spelling_append_inj hlt hlt' heq

theorem putSpan {span span' : List UInt8} (hlength : span.length = span'.length) :
    Separates scheme (putSpan span) (putSpan span') (span = span') :=
  of_restores (Restores.putSpan rfl) (Restores.putSpan hlength.symm)

/-- A byte in front tells two values apart, or else what is written after it does. -/
theorem tagged {byte byte' : UInt8} {second second' : Writer Unit} (hsecond : Uniform second)
    (hsecond' : Uniform second')
    (hnext : byte = byte' → Separates scheme second second' other) :
    Separates scheme (do Writer.putByte byte; second) (do Writer.putByte byte'; second') other :=
  seq (Uniform.putByte byte) (Uniform.putByte byte') hsecond hsecond' (putByte byte byte') hnext

theorem countedSpan (span span' : List UInt8) :
    Separates scheme (putCountedSpan span) (putCountedSpan span') (span = span') :=
  seq (Uniform.putCount _) (Uniform.putCount _) (Uniform.putSpan _) (Uniform.putSpan _)
    (putCount _ _) putSpan

theorem putBits (bits bits' : BitSeq) : Separates scheme bits.put bits'.put (bits = bits') := by
  refine seq (Uniform.putCount _) (Uniform.putCount _) (Uniform.putSpan _) (Uniform.putSpan _)
    (putCount _ _) fun hlength => (putSpan ?_).imp fun hbytes => ?_
  · rw [bits.length_bytes, bits'.length_bytes, hlength]
  · cases bits
    cases bits'
    simp_all

/-- As many items, written one after the other. -/
theorem items {put : α → Writer Unit} {value : α → β} {as bs : List α}
    (huniform : ∀ a, Uniform (put a)) (hlength : as.length = bs.length)
    (hitems : ∀ a ∈ as, ∀ b ∈ bs, Separates scheme (put a) (put b) (value a = value b)) :
    Separates scheme (as.forM put) (bs.forM put) (as.map value = bs.map value) := by
  induction as generalizing bs with
  | nil =>
    obtain rfl : bs = [] := List.length_eq_zero_iff.1 hlength.symm
    exact self rfl
  | cons a as ih =>
    cases bs with
    | nil => cases hlength
    | cons b bs =>
      have hrest := ih (Nat.succ.inj hlength) fun c hc d hd =>
        hitems c (by simp [hc]) d (by simp [hd])
      refine seq (huniform a) (huniform b) (Uniform.forM fun c _ => huniform c)
        (Uniform.forM fun c _ => huniform c) (hitems a (by simp) b (by simp)) fun heq => ?_
      refine hrest.imp fun hothers => ?_
      rw [List.map_cons, List.map_cons, heq, hothers]

theorem counted {put : α → Writer Unit} {value : α → β} {as bs : List α}
    (huniform : ∀ a, Uniform (put a))
    (hitems : ∀ a ∈ as, ∀ b ∈ bs, Separates scheme (put a) (put b) (value a = value b)) :
    Separates scheme (putCounted put as) (putCounted put bs) (as.map value = bs.map value) :=
  seq (Uniform.putCount _) (Uniform.putCount _) (Uniform.forM fun a _ => huniform a)
    (Uniform.forM fun a _ => huniform a) (putCount _ _) fun hlength => items huniform hlength hitems

/-- Two values are written at each of the positions. -/
theorem positions {put put' : α → Writer Unit} {facts : α → Prop} {as : List α}
    (huniform : ∀ a, Uniform (put a)) (huniform' : ∀ a, Uniform (put' a))
    (hsteps : ∀ a ∈ as, Separates scheme (put a) (put' a) (facts a)) :
    Separates scheme (as.forM put) (as.forM put') (∀ a ∈ as, facts a) := by
  induction as with
  | nil => exact self nofun
  | cons a as ih =>
    have hrest := ih fun b hb => hsteps b (by simp [hb])
    refine seq (huniform a) (huniform' a) (Uniform.forM fun b _ => huniform b)
      (Uniform.forM fun b _ => huniform' b) (hsteps a (by simp)) fun hfact => ?_
    exact hrest.imp fun hothers => List.forall_mem_cons.2 ⟨hfact, hothers⟩

end Separates

namespace Definitions

variable {ι : Type} {defs : Definitions ι Empty} {scheme : Scheme}

/-- The bytes of two values of a schema separate them up to their uncoded fields. -/
abbrev Separated (defs : Definitions ι Empty) (scheme : Scheme) (s : Schema ι Empty)
    (v w : Value) : Prop :=
  Separates scheme (defs.write s v) (defs.write s w) (defs.forget s v = defs.forget s w)

theorem separates_tuple {items : List (Schema ι Empty)} {vs ws : List Value}
    (hvs : vs.length = items.length) (hws : ws.length = items.length)
    (hitems : ∀ (i : Nat) item v w, items[i]? = some item → vs[i]? = some v → ws[i]? = some w →
      defs.Separated scheme item v w) :
    Separates scheme (defs.write (.tuple items) (.list vs)) (defs.write (.tuple items) (.list ws))
      (List.zipWith defs.forget items vs = List.zipWith defs.forget items ws) := by
  induction items generalizing vs ws with
  | nil =>
    obtain rfl : vs = [] := List.length_eq_zero_iff.1 hvs
    obtain rfl : ws = [] := List.length_eq_zero_iff.1 hws
    exact .self rfl
  | cons item items ih =>
    cases vs with
    | nil => cases hvs
    | cons v vs =>
      cases ws with
      | nil => cases hws
      | cons w ws =>
        have hrest := ih (Nat.succ.inj hvs) (Nat.succ.inj hws) fun i => hitems (i + 1)
        rw [write_tuple_cons, write_tuple_cons]
        refine .seq (defs.uniform_write item v) (defs.uniform_write item w)
          (defs.uniform_write _ _) (defs.uniform_write _ _) (hitems 0 item v w rfl rfl rfl)
          fun heq => hrest.imp fun hothers => ?_
        rw [List.zipWith_cons_cons, List.zipWith_cons_cons, heq, hothers]

theorem separates_record {labels : Labels} {selection : Selection} {fields : List (Schema ι Empty)}
    {vs ws : List Value} (hvs : vs.length = fields.length) (hws : ws.length = fields.length)
    (hrange : ∀ i ∈ selection.order, i < fields.length)
    (hfields : ∀ i ∈ selection.order, ∀ field v w, fields[i]? = some field → vs[i]? = some v →
      ws[i]? = some w → defs.Separated scheme field v w) :
    defs.Separated scheme (.record labels selection fields) (.list vs) (.list ws) := by
  obtain ⟨kept, hkept, hget⟩ := forget_record defs labels selection hvs
  obtain ⟨kept', hkept', hget'⟩ := forget_record defs labels selection hws
  have hin : ∀ {us : List Value} {i : Nat}, us.length = fields.length → i < fields.length →
      ∃ field v, fields[i]? = some field ∧ us[i]? = some v := by
    intro us i hus hlt
    exact ⟨_, _, List.getElem?_eq_getElem hlt, List.getElem?_eq_getElem (hus.symm ▸ hlt)⟩
  have hwrite : ∀ {us : List Value}, us.length = fields.length →
      defs.write (.record labels selection fields) (.list us) =
        selection.order.forM fun i => defs.write (fields[i]?.getD .unit) (us[i]?.getD .unit) := by
    intro us hus
    rw [write_record]
    refine Step.forM_congr fun i hi => ?_
    obtain ⟨field, v, hfield, hv⟩ := hin hus (hrange i hi)
    rw [hfield, hv]
    rfl
  have hpositions : Separates scheme
      (selection.order.forM fun i => defs.write (fields[i]?.getD .unit) (vs[i]?.getD .unit))
      (selection.order.forM fun i => defs.write (fields[i]?.getD .unit) (ws[i]?.getD .unit))
      (∀ i ∈ selection.order, kept[i]? = kept'[i]?) := by
    refine .positions (fun i => defs.uniform_write _ _) (fun i => defs.uniform_write _ _) fun i hi => ?_
    obtain ⟨field, v, hfield, hv⟩ := hin hvs (hrange i hi)
    obtain ⟨_, w, hfield', hw⟩ := hin hws (hrange i hi)
    have hsep := hfields i hi field v w hfield hv hw
    rw [hfield, hv, hw, hget, hget', hfield, hv, hw]
    refine hsep.imp fun heq => ?_
    simp only [hi, if_true, heq]
  rw [Separated, hwrite hvs, hwrite hws, hkept, hkept']
  refine hpositions.imp fun hcoded => congrArg Value.list (List.ext_getElem? fun i => ?_)
  by_cases hi : i ∈ selection.order
  · exact hcoded i hi
  · rw [hget, hget']
    by_cases hlt : i < fields.length
    · obtain ⟨field, v, hfield, hv⟩ := hin hvs hlt
      obtain ⟨_, w, _, hw⟩ := hin hws hlt
      simp only [hfield, hv, hw, hi, if_false]
    · rw [List.getElem?_eq_none (Nat.not_lt.1 hlt)]

theorem separates_text (s t : String) : defs.Separated scheme .text (.text s) (.text t) := by
  rw [Separated, ← writeWith_write]
  refine (Separates.countedSpan s.toUTF8.data.toList t.toUTF8.data.toList).imp fun heq => ?_
  have hbytes : s.toUTF8 = t.toUTF8 := ByteArray.ext (Array.toList_inj.1 heq)
  rw [String.toByteArray_inj.1 hbytes]

/-- Values of a type that is written with a packed truth value or none. -/
theorem separates_option {content : Schema ι Empty} {v w : Value}
    (hv : defs.HasType (.option content) v) (hw : defs.HasType (.option content) w)
    (hcontents : ∀ x y, v = .present x → w = .present y → defs.Separated scheme content x y) :
    defs.Separated scheme (.option content) v w := by
  by_cases hbool : content.isBool = true
  · exact .of_restores (roundTrips_packed hbool hv) (roundTrips_packed hbool hw)
  have hplain := eq_false_of_ne_true hbool
  have habsent : defs.write (.option content) .absent = (do putByte 0; pure ()) :=
    (write_absent defs hplain).trans (bind_pure (putByte 0)).symm
  have hforget : ∀ {x y}, defs.forget content x = defs.forget content y →
      defs.forget (.option content) (.present x) = defs.forget (.option content) (.present y) := by
    intro x y heq
    rw [forget_present, forget_present, heq]
  have hformV := hv _ _ (.refl _ v)
  have hformW := hw _ _ (.refl _ w)
  cases v with
  | absent =>
    cases w with
    | absent => exact .self rfl
    | present y =>
      rw [Separated, habsent, write_present defs hplain]
      exact .tagged (Uniform.pure ()) (defs.uniform_write _ _) nofun
    | _ => cases hformW
  | present x =>
    cases w with
    | absent =>
      rw [Separated, habsent, write_present defs hplain]
      exact .tagged (defs.uniform_write _ _) (Uniform.pure ()) nofun
    | present y =>
      rw [Separated, write_present defs hplain, write_present defs hplain]
      exact .tagged (defs.uniform_write _ _) (defs.uniform_write _ _) fun _ =>
        (hcontents x y rfl rfl).imp hforget
    | _ => cases hformW
  | _ => cases hformV

theorem separates_result {success failure : Schema ι Empty} {i j : Nat} {x y : Value} (hi : i < 2)
    (hj : j < 2) (hparts : ∀ t v w, defs.PartOf (.result success failure) (.tagged i x) t v →
      defs.PartOf (.result success failure) (.tagged j y) t w → defs.Separated scheme t v w) :
    defs.Separated scheme (.result success failure) (.tagged i x) (.tagged j y) := by
  match i, j, hi, hj with
  | 0, 0, _, _ =>
    rw [Separated, write_success, write_success, forget_success, forget_success]
    exact .tagged (defs.uniform_write _ _) (defs.uniform_write _ _) fun _ =>
      (hparts success x y .success .success).imp (congrArg (Value.tagged 0))
  | 0, 1, _, _ =>
    rw [Separated, write_success, write_failure]
    exact .tagged (defs.uniform_write _ _) (defs.uniform_write _ _) nofun
  | 1, 0, _, _ =>
    rw [Separated, write_success, write_failure]
    exact .tagged (defs.uniform_write _ _) (defs.uniform_write _ _) nofun
  | 1, 1, _, _ =>
    rw [Separated, write_failure, write_failure, forget_failure, forget_failure]
    exact .tagged (defs.uniform_write _ _) (defs.uniform_write _ _) fun _ =>
      (hparts failure x y .failure .failure).imp (congrArg (Value.tagged 1))

theorem separates_map {keys : Keying} {key value : Schema ι Empty}
    {entries others : List (Value × Value)}
    (hparts : ∀ t v w,
      defs.PartOf (.map keys key value)
        (.list (entries.map fun entry => .list [entry.1, entry.2])) t v →
      defs.PartOf (.map keys key value)
        (.list (others.map fun entry => .list [entry.1, entry.2])) t w →
      defs.Separated scheme t v w) :
    defs.Separated scheme (.map keys key value)
      (.list (entries.map fun entry => .list [entry.1, entry.2]))
      (.list (others.map fun entry => .list [entry.1, entry.2])) := by
  have huniform : ∀ entry : Value × Value,
      Uniform (do defs.write key entry.1; defs.write value entry.2) := fun entry =>
    (defs.uniform_write key entry.1).bind fun _ => defs.uniform_write value entry.2
  have hmem : ∀ {entry : Value × Value} {us : List (Value × Value)}, entry ∈ us →
      Value.list [entry.1, entry.2] ∈ us.map fun entry => Value.list [entry.1, entry.2] :=
    fun hentry => List.mem_map_of_mem hentry
  rw [Separated, write_map, write_map, forget_map, forget_map]
  refine Separates.imp (.counted huniform fun entry hentry other hother => ?_)
    (congrArg Value.list)
  refine .seq (defs.uniform_write _ _) (defs.uniform_write _ _) (defs.uniform_write _ _)
    (defs.uniform_write _ _)
    (hparts key _ _ (.key (hmem hentry)) (.key (hmem hother))) fun hkey => ?_
  refine (hparts value _ _ (.value (hmem hentry)) (.value (hmem hother))).imp fun hvalue => ?_
  rw [hkey, hvalue]

/-- The bytes of two values of a type begin the same bytes only where both values are the same up to
    their uncoded fields, and then the same bytes follow. -/
theorem separates_write {s : Schema ι Empty} {v w : Value} (hwell : defs.WellFormed s)
    (hv : defs.HasType s v) (hw : defs.HasType s w) : defs.Separated scheme s v w := by
  induction s, v using defs.valueInduction generalizing w with
  | step s v ih =>
    have hparts : ∀ t x y, defs.PartOf s v t x → defs.PartOf s w t y →
        defs.Separated scheme t x y :=
      fun t x y hx hy => ih t x hx (hx.forall_occurs hwell) (forall_within_part hv hx)
        (forall_within_part hw hy)
    have hadmissible := hwell _ (.refl s)
    have hform := hv _ _ (.refl s v)
    have hform' := hw _ _ (.refl s w)
    cases s with
    | unit =>
      obtain rfl : v = .unit := hform
      obtain rfl : w = .unit := hform'
      exact .self rfl
    | bool =>
      cases v with
      | bool a =>
        cases w with
        | bool b => exact .of_restores (roundTrips_bool a) (roundTrips_bool b)
        | _ => cases hform'
      | _ => cases hform
    | int t =>
      cases v with
      | int m =>
        cases w with
        | int n => exact .of_restores (roundTrips_int hform) (roundTrips_int hform')
        | _ => cases hform'
      | _ => cases hform
    | wide width =>
      cases v with
      | int m =>
        cases w with
        | int n =>
          exact .of_restores (roundTrips_wide hform.1 hform.2) (roundTrips_wide hform'.1 hform'.2)
        | _ => cases hform'
      | _ => cases hform
    | compact t =>
      cases v with
      | int m =>
        cases w with
        | int n => exact .of_restores (roundTrips_compact hform) (roundTrips_compact hform')
        | _ => cases hform'
      | _ => cases hform
    | text =>
      cases v with
      | text s =>
        cases w with
        | text t => exact separates_text s t
        | _ => cases hform'
      | _ => cases hform
    | blob =>
      cases v with
      | blob xs =>
        cases w with
        | blob ys =>
          rw [Separated, ← writeWith_write]
          exact (Separates.countedSpan xs ys).imp fun heq => by rw [heq]
        | _ => cases hform'
      | _ => cases hform
    | bits =>
      cases v with
      | bits a =>
        cases w with
        | bits b =>
          rw [Separated, ← writeWith_write]
          exact (Separates.putBits a b).imp fun heq => by rw [heq]
        | _ => cases hform'
      | _ => cases hform
    | option content =>
      refine separates_option hv hw ?_
      rintro x y rfl rfl
      exact hparts content x y .content .content
    | result success failure =>
      cases v with
      | tagged i x =>
        cases w with
        | tagged j y =>
          exact separates_result hform hform' hparts
        | _ => cases hform'
      | _ => cases hform
    | sequence kind item =>
      cases v with
      | list vs =>
        cases w with
        | list ws =>
          rw [Separated, write_sequence, write_sequence, forget_sequence, forget_sequence]
          refine Separates.imp (.counted (fun x => defs.uniform_write item x)
            fun x hx y hy => hparts item x y (.item hx) (.item hy)) (congrArg Value.list)
        | _ => cases hform'
      | _ => cases hform
    | set keys item =>
      cases v with
      | list vs =>
        cases w with
        | list ws =>
          rw [Separated, write_set, write_set, forget_set, forget_set]
          refine Separates.imp (.counted (fun x => defs.uniform_write item x)
            fun x hx y hy => hparts item x y (.member hx) (.member hy)) (congrArg Value.list)
        | _ => cases hform'
      | _ => cases hform
    | map keys key value =>
      cases v with
      | list vs =>
        cases w with
        | list ws =>
          obtain ⟨entries, rfl, _⟩ := hform
          obtain ⟨others, rfl, _⟩ := hform'
          exact separates_map hparts
        | _ => cases hform'
      | _ => cases hform
    | array count item =>
      cases v with
      | list vs =>
        cases w with
        | list ws =>
          have hlength : vs.length = ws.length := Eq.trans hform (Eq.symm hform')
          rw [Separated, write_array, write_array, forget_array, forget_array]
          refine Separates.imp (.items (fun x => defs.uniform_write item x) hlength
            fun x hx y hy => hparts item x y (.element hx) (.element hy)) (congrArg Value.list)
        | _ => cases hform'
      | _ => cases hform
    | tuple items =>
      cases v with
      | list vs =>
        cases w with
        | list ws =>
          rw [Separated, forget_tuple defs hform, forget_tuple defs hform']
          refine (separates_tuple hform hform' fun i item x y hitem hx hy => ?_).imp
            (congrArg Value.list)
          exact hparts item x y (.component hitem hx) (.component hitem hy)
        | _ => cases hform'
      | _ => cases hform
    | pointer pointee =>
      rw [Separated, write_pointer, write_pointer, forget_pointer, forget_pointer]
      exact hparts pointee v w .pointee .pointee
    | weak writeOnly _ => exact writeOnly.elim
    | encoded writeOnly => exact writeOnly.elim
    | record labels selection fields =>
      cases v with
      | list vs =>
        cases w with
        | list ws =>
          refine separates_record hform hform' hadmissible.2 fun i hi field x y hfield hx hy => ?_
          exact hparts field x y (.field hi hfield hx) (.field hi hfield hy)
        | _ => cases hform'
      | _ => cases hform
    | sum names alternatives =>
      cases v with
      | tagged i x =>
        cases w with
        | tagged j y =>
          have hget : alternatives[i]? = some alternatives[i] := List.getElem?_eq_getElem hform
          have hget' : alternatives[j]? = some alternatives[j] := List.getElem?_eq_getElem hform'
          rw [Separated, write_sum defs names hget, write_sum defs names hget', forget_sum defs names hget,
            forget_sum defs names hget']
          refine .tagged (defs.uniform_write _ _) (defs.uniform_write _ _) fun hbyte => ?_
          have hbytes : i % 2 ^ 8 = j % 2 ^ 8 := by
            simpa only [UInt8.toNat_ofNat'] using congrArg UInt8.toNat hbyte
          have hi : i < 256 := Nat.lt_of_lt_of_le hform hadmissible
          have hj : j < 256 := Nat.lt_of_lt_of_le hform' hadmissible
          obtain rfl : i = j := by omega
          exact (hparts _ x y (.alternative hget) (.alternative hget')).imp
            (congrArg (Value.tagged i))
        | _ => cases hform'
      | _ => cases hform
    | enumeration e =>
      cases v with
      | tagged i x =>
        cases w with
        | tagged j y =>
          obtain ⟨hi, rfl⟩ := hform
          obtain ⟨hj, rfl⟩ := hform'
          exact .of_restores (roundTrips_enumeration hadmissible hi)
            (roundTrips_enumeration hadmissible hj)
        | _ => cases hform'
      | _ => cases hform
    | range r =>
      cases v with
      | int m =>
        cases w with
        | int n =>
          exact .of_restores (roundTrips_range hadmissible.1 hadmissible.2 hform)
            (roundTrips_range hadmissible.1 hadmissible.2 hform')
        | _ => cases hform'
      | _ => cases hform
    | ref name =>
      rw [Separated, write_ref, write_ref, forget_ref, forget_ref]
      exact hparts (defs.body name) v w .body .body

end Definitions

end Scale
