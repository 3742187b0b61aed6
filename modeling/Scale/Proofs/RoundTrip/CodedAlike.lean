import Scale.Proofs.Overwriting.Agreement
import Scale.Proofs.Reading.Tables
import Scale.Proofs.RoundTrip.Separation

namespace Scale

/-- Lists of which the same items are made have the same length, and the same is made of what they
    have at each place. -/
theorem getElem?_of_map_eq {α β : Type} {f : α → β} {as bs : List α} (heq : as.map f = bs.map f) :
    as.length = bs.length ∧
      ∀ (i : Nat) a b, as[i]? = some a → bs[i]? = some b → f a = f b := by
  refine ⟨by simpa using congrArg List.length heq, fun i a b ha hb => ?_⟩
  simpa [ha, hb] using congrArg (·[i]?) heq

namespace Definitions

open Writer

variable {ι ω : Type}

/-- The values are the same but for fields that are not coded, in them or anywhere within them. -/
inductive CodedAlike (defs : Definitions ι ω) : Schema ι ω → Value → Value → Prop where
  | refl (s : Schema ι ω) (v : Value) : CodedAlike defs s v v
  | content {s v w} : CodedAlike defs s v w → CodedAlike defs (.option s) (.present v) (.present w)
  | success {s t v w} : CodedAlike defs s v w →
    CodedAlike defs (.result s t) (.tagged 0 v) (.tagged 0 w)
  | failure {s t v w} : CodedAlike defs t v w →
    CodedAlike defs (.result s t) (.tagged 1 v) (.tagged 1 w)
  | items {kind s vs ws} : vs.length = ws.length →
    (∀ (i : Nat) v w, vs[i]? = some v → ws[i]? = some w → CodedAlike defs s v w) →
    CodedAlike defs (.sequence kind s) (.list vs) (.list ws)
  | members {keys s vs ws} : vs.length = ws.length →
    (∀ (i : Nat) v w, vs[i]? = some v → ws[i]? = some w → CodedAlike defs s v w) →
    CodedAlike defs (.set keys s) (.list vs) (.list ws)
  | entries {keys s t} {vs ws : List (Value × Value)} : vs.length = ws.length →
    (∀ (i : Nat) v w, vs[i]? = some v → ws[i]? = some w → CodedAlike defs s v.1 w.1) →
    (∀ (i : Nat) v w, vs[i]? = some v → ws[i]? = some w → CodedAlike defs t v.2 w.2) →
    CodedAlike defs (.map keys s t) (.list (vs.map .ofEntry)) (.list (ws.map .ofEntry))
  | elements {count s vs ws} : vs.length = ws.length →
    (∀ (i : Nat) v w, vs[i]? = some v → ws[i]? = some w → CodedAlike defs s v w) →
    CodedAlike defs (.array count s) (.list vs) (.list ws)
  | components {ss vs ws} : vs.length = ws.length →
    (∀ (i : Nat) s v w, ss[i]? = some s → vs[i]? = some v → ws[i]? = some w →
      CodedAlike defs s v w) →
    CodedAlike defs (.tuple ss) (.list vs) (.list ws)
  | pointee {s v w} : CodedAlike defs s v w → CodedAlike defs (.pointer s) v w
  | fields {labels selection ss vs ws} : vs.length = ws.length →
    (∀ i ∈ selection.order, ∀ s v w, ss[i]? = some s → vs[i]? = some v → ws[i]? = some w →
      CodedAlike defs s v w) →
    CodedAlike defs (.record labels selection ss) (.list vs) (.list ws)
  | alternative {names ss s v w} {i : Nat} : ss[i]? = some s → CodedAlike defs s v w →
    CodedAlike defs (.sum names ss) (.tagged i v) (.tagged i w)
  | body {name v w} : CodedAlike defs (defs.body name) v w → CodedAlike defs (.ref name) v w

variable {defs : Definitions ι ω}

/-- Nothing that is not coded has a say in what is written. -/
theorem CodedAlike.write_eq {s : Schema ι ω} {v w : Value} (halike : defs.CodedAlike s v w) :
    defs.write s v = defs.write s w := by
  induction halike with
  | refl _ _ => rfl
  | @content s v w halike ih =>
    by_cases hbool : s.isBool = true
    · cases s with
      | bool =>
        cases halike with
        | refl _ _ => rfl
      | _ => cases hbool
    · have hplain := eq_false_of_ne_true hbool
      rw [write_present defs hplain, write_present defs hplain, ih]
  | success _ ih => rw [write_success, write_success, ih]
  | failure _ ih => rw [write_failure, write_failure, ih]
  | items hlength _ ih =>
    rw [write_sequence, write_sequence, putCounted, putCounted, hlength,
      Step.forM_congr_of_getElem? hlength ih]
  | members hlength _ ih =>
    rw [write_set, write_set, putCounted, putCounted, hlength,
      Step.forM_congr_of_getElem? hlength ih]
  | @entries keys s t vs ws hlength _ _ hkeys hvalues =>
    refine (write_map defs keys s t vs).trans (Eq.trans ?_ (write_map defs keys s t ws).symm)
    rw [putCounted, putCounted, hlength, Step.forM_congr_of_getElem? hlength]
    intro i v w hv hw
    rw [hkeys i v w hv hw, hvalues i v w hv hw]
  | elements hlength _ ih =>
    rw [write_array, write_array, Step.forM_congr_of_getElem? hlength ih]
  | components hlength _ ih =>
    refine write_tuple_congr defs rfl hlength fun i s s' v w hs hs' hv hw => ?_
    obtain rfl := Option.some.inj (hs.symm.trans hs')
    exact ih i s v w hs hv hw
  | pointee _ ih => rw [write_pointer, write_pointer, ih]
  | fields hlength _ ih =>
    refine write_record_congr defs rfl hlength fun i hi s s' v w hs hs' hv hw => ?_
    obtain rfl := Option.some.inj (hs.symm.trans hs')
    exact ih i hi s v w hs hv hw
  | @alternative names _ _ _ _ _ hget _ ih =>
    rw [write_sum defs names hget, write_sum defs names hget, ih]
  | body _ ih => rw [write_ref, write_ref, ih]

theorem CodedAlike.encodeFull_eq {s : Schema ι ω} {v w : Value} (halike : defs.CodedAlike s v w)
    (scheme : Scheme) : defs.encodeFull scheme s v = defs.encodeFull scheme s w := by
  rw [encodeFull, encodeFull, halike.write_eq]

/-- Values of which the same is left without their uncoded fields differ in these only. -/
theorem codedAlike_of_forget_eq {s : Schema ι Empty} {defs : Definitions ι Empty} {v w : Value}
    (hv : defs.HasType s v) (hw : defs.HasType s w) (heq : defs.forget s v = defs.forget s w) :
    defs.CodedAlike s v w := by
  induction s, v using defs.valueInduction generalizing w with
  | step s v ih =>
    have hparts : ∀ t x y, defs.PartOf s v t x → defs.PartOf s w t y →
        defs.forget t x = defs.forget t y → defs.CodedAlike t x y := fun t x y hx hy =>
      ih t x hx (forall_within_part hv hx) (forall_within_part hw hy)
    have hform := hv _ _ (.refl s v)
    have hform' := hw _ _ (.refl s w)
    cases s with
    | option content =>
      cases v with
      | absent =>
        cases w with
        | absent => exact .refl _ _
        | present y =>
          rw [forget_present, ← forgetWith_forget] at heq
          cases heq
        | _ => cases hform'
      | present x =>
        cases w with
        | absent =>
          rw [forget_present, ← forgetWith_forget defs (.option content)] at heq
          cases heq
        | present y =>
          rw [forget_present, forget_present] at heq
          exact .content (hparts content x y .content .content (Value.present.inj heq))
        | _ => cases hform'
      | _ => cases hform
    | result success failure =>
      cases v with
      | tagged i x =>
        cases w with
        | tagged j y =>
          match i, j, hform, hform' with
          | 0, 0, _, _ =>
            rw [forget_success, forget_success] at heq
            exact .success (hparts success x y .success .success (Value.tagged.inj heq).2)
          | 0, 1, _, _ =>
            rw [forget_success, forget_failure] at heq
            cases heq
          | 1, 0, _, _ =>
            rw [forget_success, forget_failure] at heq
            cases heq
          | 1, 1, _, _ =>
            rw [forget_failure, forget_failure] at heq
            exact .failure (hparts failure x y .failure .failure (Value.tagged.inj heq).2)
        | _ => cases hform'
      | _ => cases hform
    | sequence kind item =>
      cases v with
      | list vs =>
        cases w with
        | list ws =>
          rw [forget_sequence, forget_sequence] at heq
          obtain ⟨hlength, hitems⟩ := getElem?_of_map_eq (Value.list.inj heq)
          exact .items hlength fun i x y hx hy =>
            hparts item x y (.item (List.mem_of_getElem? hx)) (.item (List.mem_of_getElem? hy))
              (hitems i x y hx hy)
        | _ => cases hform'
      | _ => cases hform
    | set keys item =>
      cases v with
      | list vs =>
        cases w with
        | list ws =>
          rw [forget_set, forget_set] at heq
          obtain ⟨hlength, hitems⟩ := getElem?_of_map_eq (Value.list.inj heq)
          exact .members hlength fun i x y hx hy =>
            hparts item x y (.member (List.mem_of_getElem? hx)) (.member (List.mem_of_getElem? hy))
              (hitems i x y hx hy)
        | _ => cases hform'
      | _ => cases hform
    | map keys key value =>
      cases v with
      | list vs =>
        cases w with
        | list ws =>
          obtain ⟨entries, rfl, _⟩ := hform
          obtain ⟨others, rfl, _⟩ := hform'
          rw [forget_map, forget_map] at heq
          obtain ⟨hlength, hentries⟩ := getElem?_of_map_eq (Value.list.inj heq)
          have hmem : ∀ {us : List (Value × Value)} {i : Nat} {entry}, us[i]? = some entry →
              Value.list [entry.1, entry.2] ∈ us.map fun entry => Value.list [entry.1, entry.2] :=
            fun hentry => List.mem_map_of_mem (List.mem_of_getElem? hentry)
          have hpairs : ∀ (i : Nat) x y, entries[i]? = some x → others[i]? = some y →
              defs.forget key x.1 = defs.forget key y.1 ∧
                defs.forget value x.2 = defs.forget value y.2 := fun i x y hx hy => by
            simpa using hentries i x y hx hy
          refine .entries hlength (fun i x y hx hy => ?_) (fun i x y hx hy => ?_)
          · exact hparts key _ _ (.key (hmem hx)) (.key (hmem hy)) (hpairs i x y hx hy).1
          · exact hparts value _ _ (.value (hmem hx)) (.value (hmem hy)) (hpairs i x y hx hy).2
        | _ => cases hform'
      | _ => cases hform
    | array count item =>
      cases v with
      | list vs =>
        cases w with
        | list ws =>
          rw [forget_array, forget_array] at heq
          obtain ⟨hlength, hitems⟩ := getElem?_of_map_eq (Value.list.inj heq)
          exact .elements hlength fun i x y hx hy =>
            hparts item x y (.element (List.mem_of_getElem? hx)) (.element (List.mem_of_getElem? hy))
              (hitems i x y hx hy)
        | _ => cases hform'
      | _ => cases hform
    | tuple items =>
      cases v with
      | list vs =>
        cases w with
        | list ws =>
          rw [forget_tuple defs hform, forget_tuple defs hform'] at heq
          refine .components (hform.trans hform'.symm) fun i item x y hitem hx hy => ?_
          have hat := congrArg (·[i]?) (Value.list.inj heq)
          simp only [List.getElem?_zipWith, hitem, hx, hy, Option.some.injEq] at hat
          exact hparts item x y (.component hitem hx) (.component hitem hy) hat
        | _ => cases hform'
      | _ => cases hform
    | pointer pointee =>
      rw [forget_pointer, forget_pointer] at heq
      exact .pointee (hparts pointee v w .pointee .pointee heq)
    | weak writeOnly _ => exact writeOnly.elim
    | encoded writeOnly => exact writeOnly.elim
    | record labels selection fields =>
      cases v with
      | list vs =>
        cases w with
        | list ws =>
          obtain ⟨kept, hkept, hget⟩ := forget_record defs labels selection hform
          obtain ⟨kept', hkept', hget'⟩ := forget_record defs labels selection hform'
          rw [hkept, hkept'] at heq
          refine .fields (hform.trans hform'.symm) fun i hi field x y hfield hx hy => ?_
          have hat := congrArg (·[i]?) (Value.list.inj heq)
          simp only [hget, hget', hfield, hx, hy, hi, if_true, Option.some.injEq] at hat
          exact hparts field x y (.field hi hfield hx) (.field hi hfield hy) hat
        | _ => cases hform'
      | _ => cases hform
    | sum names alternatives =>
      cases v with
      | tagged i x =>
        cases w with
        | tagged j y =>
          have hget : alternatives[i]? = some alternatives[i] := List.getElem?_eq_getElem hform
          have hget' : alternatives[j]? = some alternatives[j] := List.getElem?_eq_getElem hform'
          rw [forget_sum defs names hget, forget_sum defs names hget'] at heq
          obtain ⟨rfl, heq⟩ := Value.tagged.inj heq
          exact .alternative hget (hparts _ x y (.alternative hget) (.alternative hget') heq)
        | _ => cases hform'
      | _ => cases hform
    | ref name =>
      rw [forget_ref, forget_ref] at heq
      exact .body (hparts (defs.body name) v w .body .body heq)
    | _ =>
      rw [← forgetWith_forget] at heq
      obtain rfl : v = w := heq
      exact .refl _ _

/-- The bytes of two values of a type begin the same bytes just where the values differ in uncoded
    fields only and the same bytes follow. Values that do are written in the same way, in whatever
    scheme and whether or not that succeeds, and no value has bytes that merely begin with those of
    another one. -/
theorem encodings_separate {s : Schema ι Empty} {defs : Definitions ι Empty} {v w : Value}
    (hwell : defs.WellFormed s) (hv : defs.HasType s v) (hw : defs.HasType s w) :
    (∀ scheme bytes bytes', defs.encodeFull scheme s v = .ok bytes →
      defs.encodeFull scheme s w = .ok bytes' →
      (∀ rest rest', bytes.toList ++ rest = bytes'.toList ++ rest' ↔
        defs.CodedAlike s v w ∧ rest = rest') ∧
      (bytes.toList <+: bytes'.toList → bytes = bytes')) ∧
    (defs.CodedAlike s v w → defs.write s v = defs.write s w ∧
      ∀ scheme, defs.encodeFull scheme s v = defs.encodeFull scheme s w) := by
  refine ⟨fun scheme bytes bytes' hencode hencode' => ?_, fun halike =>
    ⟨halike.write_eq, halike.encodeFull_eq⟩⟩
  have hseparates : ∀ rest rest', bytes.toList ++ rest = bytes'.toList ++ rest' →
      defs.CodedAlike s v w ∧ rest = rest' := by
    intro rest rest' heq
    obtain ⟨hforget, hrest⟩ := separates_write hwell hv hw (encodeFull_eq_ok_iff defs |>.1 hencode)
      (encodeFull_eq_ok_iff defs |>.1 hencode') heq
    exact ⟨codedAlike_of_forget_eq hv hw hforget, hrest⟩
  have hsame : defs.CodedAlike s v w → bytes = bytes' := fun halike =>
    Except.ok.inj (hencode.symm.trans ((halike.encodeFull_eq scheme).trans hencode'))
  refine ⟨fun rest rest' => ⟨hseparates rest rest', ?_⟩, ?_⟩
  · rintro ⟨halike, rfl⟩
    rw [hsame halike]
  · rintro ⟨rest, hstart⟩
    exact hsame (hseparates rest [] (hstart.trans (List.append_nil _).symm)).1

open Catalogue in
/-- A record with other values in its first and its last field, which are not coded. -/
theorem encodings_separate_partialRecord :
    none.CodedAlike (partialRecord : Schema Empty Empty)
        (.list [.int 0, .int 1, .int 2, .int 3, .int 255])
        (.list [.int 7, .int 1, .int 2, .int 3, .int 8]) ∧
      none.encodeFull .jam (partialRecord : Schema Empty Empty)
          (.list [.int 0, .int 1, .int 2, .int 3, .int 255]) = .ok #[1, 2, 3] ∧
      none.encodeFull .jam (partialRecord : Schema Empty Empty)
          (.list [.int 7, .int 1, .int 2, .int 3, .int 8]) = .ok #[1, 2, 3] := by
  have hv : none.HasType (partialRecord : Schema Empty Empty)
      (.list [.int 0, .int 1, .int 2, .int 3, .int 255]) := hasType_partialRecord _ _ rfl rfl rfl
  have hw : none.HasType (partialRecord : Schema Empty Empty)
      (.list [.int 7, .int 1, .int 2, .int 3, .int 8]) := hasType_partialRecord _ _ rfl rfl rfl
  have hencode : none.encodeFull .jam (partialRecord : Schema Empty Empty)
      (.list [.int 0, .int 1, .int 2, .int 3, .int 255]) = .ok #[1, 2, 3] := rfl
  have hencode' : none.encodeFull .jam (partialRecord : Schema Empty Empty)
      (.list [.int 7, .int 1, .int 2, .int 3, .int 8]) = .ok #[1, 2, 3] := rfl
  obtain ⟨hseparates, _⟩ := encodings_separate wellFormed_partialRecord hv hw
  obtain ⟨hiff, _⟩ := hseparates .jam _ _ hencode hencode'
  exact ⟨((hiff [] []).1 rfl).1, hencode, hencode'⟩

end Definitions

end Scale
