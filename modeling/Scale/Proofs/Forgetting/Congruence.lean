import Scale.Proofs.Value.Traversal

namespace Scale

namespace Schema

variable {ι ω : Type}

mutual

/-- A value with its uncoded fields replaced by their defaults, with `self` for recursive types. -/
def forgetWith (self : ι → Value → Value) : Schema ι ω → Value → Value
  | option content => fun
    | .present w => .present (forgetWith self content w)
    | v => v
  | result success failure => fun
    | .tagged 0 w => .tagged 0 (forgetWith self success w)
    | .tagged 1 w => .tagged 1 (forgetWith self failure w)
    | v => v
  | sequence _ item => fun
    | .list vs => .list (vs.map (forgetWith self item))
    | v => v
  | set _ item => fun
    | .list vs => .list (vs.map (forgetWith self item))
    | v => v
  | map _ key value => fun
    | .list entries => .list (entries.map fun
      | .list [k, w] => .list [forgetWith self key k, forgetWith self value w]
      | entry => entry)
    | v => v
  | array _ item => fun
    | .list vs => .list (vs.map (forgetWith self item))
    | v => v
  | tuple items => fun
    | .list vs => .list (forgetAll self items vs)
    | v => v
  | pointer pointee => forgetWith self pointee
  | weak _ pointee => forgetWith self pointee
  | record _ selection fields => fun
    | .list vs => .list (forgetFields self selection 0 fields vs)
    | v => v
  | sum _ alternatives => fun
    | .tagged i w => .tagged i (forgetNth self alternatives i w)
    | v => v
  | ref name => self name
  | _ => id

/-- The same for one value after the other. -/
def forgetAll (self : ι → Value → Value) : List (Schema ι ω) → List Value → List Value
  | s :: ss, v :: vs => forgetWith self s v :: forgetAll self ss vs
  | _, vs => vs

/-- The same for the value of the schema at an index. -/
def forgetNth (self : ι → Value → Value) : List (Schema ι ω) → Nat → Value → Value
  | [], _, v => v
  | s :: _, 0, v => forgetWith self s v
  | _ :: ss, i + 1, v => forgetNth self ss i v

/-- The fields of a record from the position `i` on; those that are not selected take their
    defaults. -/
def forgetFields (self : ι → Value → Value) (selection : Selection) (i : Nat) :
    List (Schema ι ω) → List Value → List Value
  | s :: ss, v :: vs =>
    (if i ∈ selection.order then forgetWith self s v else selection.default i) ::
      forgetFields self selection (i + 1) ss vs
  | _, vs => vs

end

variable {self self' : ι → Value → Value}

theorem forgetAll_congr {items : List (Schema ι ω)} {vs : List Value}
    (hitems : ∀ (i : Nat) item v, items[i]? = some item → vs[i]? = some v →
      item.forgetWith self v = item.forgetWith self' v) :
    forgetAll self items vs = forgetAll self' items vs := by
  induction items generalizing vs with
  | nil => cases vs <;> rfl
  | cons item items ih =>
    cases vs with
    | nil => rfl
    | cons v vs =>
      rw [forgetAll, forgetAll, hitems 0 item v rfl rfl, ih fun i => hitems (i + 1)]

theorem forgetNth_eq (alternatives : List (Schema ι ω)) (i : Nat) (v : Value) :
    forgetNth self alternatives i v =
      match alternatives[i]? with
      | some alternative => alternative.forgetWith self v
      | none => v := by
  induction alternatives generalizing i with
  | nil => rfl
  | cons alternative alternatives ih =>
    cases i with
    | zero => rfl
    | succ i => exact ih i

/-- Each field that is coded is treated by its own schema, and each other one takes its default. -/
theorem getElem?_forgetFields {selection : Selection} {fields : List (Schema ι ω)} {vs : List Value}
    (hlength : vs.length = fields.length) (start i : Nat) :
    (forgetFields self selection start fields vs)[i]? =
      match fields[i]?, vs[i]? with
      | some field, some v =>
        some (if start + i ∈ selection.order then field.forgetWith self v
          else selection.default (start + i))
      | _, _ => none := by
  induction fields generalizing vs start i with
  | nil =>
    have hvs : vs = [] := List.length_eq_zero_iff.1 hlength
    subst hvs
    rfl
  | cons field fields ih =>
    cases vs with
    | nil => cases hlength
    | cons v vs =>
      cases i with
      | zero => rfl
      | succ i =>
        rw [forgetFields, List.getElem?_cons_succ, ih (Nat.succ.inj hlength), Nat.add_right_comm,
          Nat.add_assoc]
        rfl

theorem forgetFields_congr {selection : Selection} {fields : List (Schema ι ω)} {vs : List Value}
    (start : Nat) (hfields : ∀ (i : Nat) field v, start + i ∈ selection.order →
      fields[i]? = some field → vs[i]? = some v →
        field.forgetWith self v = field.forgetWith self' v) :
    forgetFields self selection start fields vs = forgetFields self' selection start fields vs := by
  induction fields generalizing vs start with
  | nil => cases vs <;> rfl
  | cons field fields ih =>
    cases vs with
    | nil => rfl
    | cons v vs =>
      have hrest : forgetFields self selection (start + 1) fields vs =
          forgetFields self' selection (start + 1) fields vs := by
        refine ih (start + 1) fun i other w hi => ?_
        rw [Nat.add_assoc, Nat.add_comm 1] at hi
        exact hfields (i + 1) other w hi
      rw [forgetFields, forgetFields, hrest]
      split
      · rw [hfields 0 field v ‹_› rfl rfl]
      · rfl

theorem forgetWith_congr (defs : Definitions ι ω) (s : Schema ι ω) (v : Value)
    (href : ∀ name, s ≠ .ref name)
    (hparts : ∀ t w, defs.PartOf s v t w → t.forgetWith self w = t.forgetWith self' w) :
    s.forgetWith self v = s.forgetWith self' v := by
  cases s with
  | option content =>
    cases v with
    | present w => exact congrArg Value.present (hparts content w .content)
    | _ => rfl
  | result success failure =>
    cases v with
    | tagged i w =>
      match i with
      | 0 => exact congrArg (Value.tagged 0) (hparts success w .success)
      | 1 => exact congrArg (Value.tagged 1) (hparts failure w .failure)
      | _ + 2 => rfl
    | _ => rfl
  | sequence kind item =>
    cases v with
    | list vs => exact congrArg Value.list (List.map_congr_left fun w hw => hparts item w (.item hw))
    | _ => rfl
  | set keys item =>
    cases v with
    | list vs => exact congrArg Value.list (List.map_congr_left fun w hw => hparts item w (.member hw))
    | _ => rfl
  | map keys key value =>
    cases v with
    | list entries =>
      refine congrArg Value.list (List.map_congr_left fun entry hentry => ?_)
      split
      · rw [hparts key _ (.key hentry), hparts value _ (.value hentry)]
      · rfl
    | _ => rfl
  | array count item =>
    cases v with
    | list vs => exact congrArg Value.list (List.map_congr_left fun w hw => hparts item w (.element hw))
    | _ => rfl
  | tuple items =>
    cases v with
    | list vs =>
      refine congrArg Value.list (forgetAll_congr fun i item w hitem hw => ?_)
      exact hparts item w (.component hitem hw)
    | _ => rfl
  | pointer pointee => exact hparts pointee v .pointee
  | weak writeOnly pointee => exact hparts pointee v .target
  | record labels selection fields =>
    cases v with
    | list vs =>
      refine congrArg Value.list (forgetFields_congr 0 fun i field w hi hfield hw => ?_)
      rw [Nat.zero_add] at hi
      exact hparts field w (.field hi hfield hw)
    | _ => rfl
  | sum names alternatives =>
    cases v with
    | tagged i w =>
      refine congrArg (Value.tagged i) ?_
      rw [forgetNth_eq, forgetNth_eq]
      cases hget : alternatives[i]? with
      | none => rfl
      | some alternative => exact hparts alternative w (.alternative hget)
    | _ => rfl
  | ref name => exact absurd rfl (href name)
  | _ => rfl

end Schema

/-- Forgetting as a function that follows the schema of a value. -/
def Traversal.forgetting (ι ω : Type) : Traversal ι ω Value where
  run := Schema.forgetWith
  exhausted := .unit
  run_ref self name v := by rw [Schema.forgetWith]
  run_congr := Schema.forgetWith_congr

namespace Definitions

variable {ι ω : Type} (defs : Definitions ι ω)

/-- A value with its uncoded fields, and those of all values within it, replaced by their
    defaults. -/
def forget (s : Schema ι ω) (v : Value) : Value :=
  (Traversal.forgetting ι ω).full defs s v

theorem forgetWith_forget (s : Schema ι ω) :
    s.forgetWith (fun name => defs.forget (.ref name)) = defs.forget s := by
  funext v
  exact ((Traversal.forgetting ι ω).full_eq defs s v).symm

theorem forget_ref (name : ι) (v : Value) : defs.forget (.ref name) v = defs.forget (defs.body name) v :=
  (Traversal.forgetting ι ω).full_ref defs name v

end Definitions

end Scale
