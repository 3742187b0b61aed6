import Scale.Proofs.Forgetting.Congruence
import Scale.Proofs.Schema.Typing

namespace Scale

variable {ι ω : Type}

theorem Schema.forgetAll_eq_zipWith {self : ι → Value → Value} {items : List (Schema ι ω)}
    {vs : List Value} (hlength : vs.length = items.length) :
    forgetAll self items vs = List.zipWith (forgetWith self) items vs := by
  induction items generalizing vs with
  | nil =>
    have hvs : vs = [] := List.length_eq_zero_iff.1 hlength
    subst hvs
    rfl
  | cons item items ih =>
    cases vs with
    | nil => cases hlength
    | cons v vs => rw [forgetAll, ih (Nat.succ.inj hlength), List.zipWith_cons_cons]

namespace Definitions

variable (defs : Definitions ι ω)

theorem forget_present (content : Schema ι ω) (w : Value) :
    defs.forget (.option content) (.present w) = .present (defs.forget content w) := by
  rw [← forgetWith_forget, Schema.forgetWith, forgetWith_forget]

theorem forget_success (success failure : Schema ι ω) (w : Value) :
    defs.forget (.result success failure) (.tagged 0 w) = .tagged 0 (defs.forget success w) := by
  rw [← forgetWith_forget, Schema.forgetWith]
  dsimp only
  rw [forgetWith_forget]
  rfl

theorem forget_failure (success failure : Schema ι ω) (w : Value) :
    defs.forget (.result success failure) (.tagged 1 w) = .tagged 1 (defs.forget failure w) := by
  rw [← forgetWith_forget, Schema.forgetWith]
  dsimp only
  rw [forgetWith_forget defs failure]
  rfl

theorem forget_sequence (kind : SequenceKind) (item : Schema ι ω) (vs : List Value) :
    defs.forget (.sequence kind item) (.list vs) = .list (vs.map (defs.forget item)) := by
  rw [← forgetWith_forget, Schema.forgetWith, forgetWith_forget]

theorem forget_set (keys : Keying) (item : Schema ι ω) (vs : List Value) :
    defs.forget (.set keys item) (.list vs) = .list (vs.map (defs.forget item)) := by
  rw [← forgetWith_forget, Schema.forgetWith, forgetWith_forget]

theorem forget_map (keys : Keying) (key value : Schema ι ω) (entries : List (Value × Value)) :
    defs.forget (.map keys key value) (.list (entries.map fun entry => .list [entry.1, entry.2])) =
      .list (entries.map fun entry =>
        .list [defs.forget key entry.1, defs.forget value entry.2]) := by
  rw [← forgetWith_forget, Schema.forgetWith, forgetWith_forget, forgetWith_forget]
  dsimp only
  rw [List.map_map]
  rfl

theorem forget_array (count : Nat) (item : Schema ι ω) (vs : List Value) :
    defs.forget (.array count item) (.list vs) = .list (vs.map (defs.forget item)) := by
  rw [← forgetWith_forget, Schema.forgetWith, forgetWith_forget]

theorem forget_tuple {items : List (Schema ι ω)} {vs : List Value}
    (hlength : vs.length = items.length) :
    defs.forget (.tuple items) (.list vs) = .list (List.zipWith defs.forget items vs) := by
  rw [← forgetWith_forget, Schema.forgetWith]
  dsimp only
  rw [Schema.forgetAll_eq_zipWith hlength]
  exact congrArg (fun f => Value.list (List.zipWith f items vs)) (funext defs.forgetWith_forget)

theorem forget_pointer (pointee : Schema ι ω) (v : Value) :
    defs.forget (.pointer pointee) v = defs.forget pointee v := by
  rw [← forgetWith_forget, Schema.forgetWith, forgetWith_forget]

theorem forget_weak (writeOnly : ω) (pointee : Schema ι ω) (v : Value) :
    defs.forget (.weak writeOnly pointee) v = defs.forget pointee v := by
  rw [← forgetWith_forget, Schema.forgetWith, forgetWith_forget]

/-- The fields of a record are forgotten one by one: those that are coded by their own schemas, and
    all others as a whole. -/
theorem forget_record (labels : Labels) (selection : Selection) {fields : List (Schema ι ω)}
    {vs : List Value} (hlength : vs.length = fields.length) :
    ∃ ws, defs.forget (.record labels selection fields) (.list vs) = .list ws ∧ ∀ i : Nat, ws[i]? =
      match fields[i]?, vs[i]? with
      | some field, some v =>
        some (if i ∈ selection.order then defs.forget field v else selection.default i)
      | _, _ => Option.none := by
  refine ⟨_, by rw [← forgetWith_forget, Schema.forgetWith], fun i => ?_⟩
  have hget := @Schema.getElem?_forgetFields ι ω (fun name => defs.forget (.ref name)) selection fields
    vs hlength 0 i
  simp only [Nat.zero_add, forgetWith_forget] at hget
  exact hget

theorem forget_sum (names : List String) {alternatives : List (Schema ι ω)} {i : Nat}
    {alternative : Schema ι ω} (hget : alternatives[i]? = some alternative) (w : Value) :
    defs.forget (.sum names alternatives) (.tagged i w) = .tagged i (defs.forget alternative w) := by
  rw [← forgetWith_forget, Schema.forgetWith]
  dsimp only
  rw [Schema.forgetNth_eq, hget]
  dsimp only
  rw [forgetWith_forget]

end Definitions

/-- Whether all fields are coded, if the schema is a record. -/
def Schema.FullyCoded : Schema ι ω → Prop
  | record _ selection fields => ∀ i < fields.length, i ∈ selection.order
  | _ => True

namespace Definitions

variable {defs : Definitions ι ω}

/-- Nothing is forgotten of a value in which all fields are coded. -/
theorem forget_eq_self {s : Schema ι ω} {v : Value} (hcoded : ∀ t, defs.Occurs s t → t.FullyCoded)
    (htype : defs.HasType s v) : defs.forget s v = v := by
  induction s, v using defs.valueInduction with
  | step s v ih =>
    have hparts : ∀ t w, defs.PartOf s v t w → defs.forget t w = w := fun t w hpart =>
      ih t w hpart (hpart.forall_occurs hcoded) (forall_within_part htype hpart)
    have hitems : ∀ {t} {ws : List Value}, (∀ w ∈ ws, defs.PartOf s v t w) → ws.map (defs.forget t) = ws := by
      intro t ws hws
      refine (List.map_congr_left fun w hw => ?_).trans (List.map_id ws)
      exact hparts t w (hws w hw)
    have hform := htype _ _ (.refl s v)
    cases s with
    | option content =>
      cases v with
      | present w => rw [forget_present, hparts content w .content]
      | absent => rw [← forgetWith_forget]; rfl
      | _ => cases hform
    | result success failure =>
      cases v with
      | tagged i w =>
        match i with
        | 0 => rw [forget_success, hparts success w .success]
        | 1 => rw [forget_failure, hparts failure w .failure]
        | _ + 2 => rw [← forgetWith_forget]; rfl
      | _ => cases hform
    | sequence kind item =>
      cases v with
      | list vs => rw [forget_sequence, hitems fun w hw => .item hw]
      | _ => cases hform
    | set keys item =>
      cases v with
      | list vs => rw [forget_set, hitems fun w hw => .member hw]
      | _ => cases hform
    | map keys key value =>
      cases v with
      | list vs =>
        obtain ⟨entries, rfl, _⟩ := hform
        rw [forget_map]
        refine congrArg Value.list (List.map_congr_left fun entry hentry => ?_)
        have hmem : Value.list [entry.1, entry.2] ∈
            entries.map fun entry => Value.list [entry.1, entry.2] :=
          List.mem_map_of_mem hentry
        rw [hparts key _ (.key hmem), hparts value _ (.value hmem)]
      | _ => cases hform
    | array count item =>
      cases v with
      | list vs => rw [forget_array, hitems fun w hw => .element hw]
      | _ => cases hform
    | tuple items =>
      cases v with
      | list vs =>
        rw [forget_tuple defs hform]
        refine congrArg Value.list (List.ext_getElem? fun i => ?_)
        rw [List.getElem?_zipWith]
        cases hw : vs[i]? with
        | none => cases items[i]? <;> rfl
        | some w =>
          have hlt : i < items.length := hform ▸ (List.getElem?_eq_some_iff.1 hw).1
          have hitem : items[i]? = some items[i] := List.getElem?_eq_getElem hlt
          rw [hitem]
          exact congrArg some (hparts _ w (.component hitem hw))
      | _ => cases hform
    | pointer pointee => rw [forget_pointer, hparts pointee v .pointee]
    | weak writeOnly pointee => rw [forget_weak, hparts pointee v .target]
    | record labels selection fields =>
      cases v with
      | list vs =>
        obtain ⟨ws, hforget, hws⟩ := forget_record defs labels selection hform
        rw [hforget]
        refine congrArg Value.list (List.ext_getElem? fun i => ?_)
        rw [hws]
        cases hw : vs[i]? with
        | none => cases fields[i]? <;> rfl
        | some w =>
          have hlt : i < fields.length := hform ▸ (List.getElem?_eq_some_iff.1 hw).1
          have hfield : fields[i]? = some fields[i] := List.getElem?_eq_getElem hlt
          have hi : i ∈ selection.order := hcoded _ (.refl _) i hlt
          rw [hfield]
          dsimp only
          rw [if_pos hi, hparts _ w (.field hi hfield hw)]
      | _ => cases hform
    | sum names alternatives =>
      cases v with
      | tagged i w =>
        have hget : alternatives[i]? = some alternatives[i] := List.getElem?_eq_getElem hform
        rw [forget_sum defs names hget, hparts _ w (.alternative hget)]
      | _ => cases hform
    | ref name => rw [forget_ref, hparts _ v .body]
    | _ => rw [← forgetWith_forget]; rfl

end Definitions

end Scale
