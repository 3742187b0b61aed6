import Scale.Proofs.Counts
import Scale.Proofs.Value.Traversal

namespace Scale

/-- A relation between writing steps that sequencing keeps. -/
structure Writer.Congruence (R : Writer Unit → Writer Unit → Prop) : Prop where
  refl : ∀ {step : Writer Unit}, Writer.Uniform step → R step step
  seq : ∀ {first first' second second' : Writer Unit}, R first first' → R second second' →
    R (first >>= fun _ => second) (first' >>= fun _ => second')

namespace Schema

variable {ι ω : Type} (self : ι → Value → Writer Unit)

theorem writeAt_eq (fields : List (Schema ι ω)) (vs : List Value) (i : Nat) :
    writeAt self fields vs i =
      match fields[i]?, vs[i]? with
      | some field, some v => field.writeWith self v
      | _, _ => throw .illTyped := by
  induction fields generalizing vs i with
  | nil => cases vs <;> cases i <;> rfl
  | cons field fields ih =>
    cases vs with
    | nil =>
      cases i with
      | zero => rfl
      | succ i =>
        simp only [writeAt, List.getElem?_cons_succ, List.getElem?_nil]
        cases fields[i]? <;> rfl
    | cons v vs =>
      cases i with
      | zero => rfl
      | succ i => exact ih vs i

theorem writeNth_eq (alternatives : List (Schema ι ω)) (i : Nat) (v : Value) :
    writeNth self alternatives i v =
      match alternatives[i]? with
      | some alternative => alternative.writeWith self v
      | none => throw .illTyped := by
  induction alternatives generalizing i with
  | nil => rfl
  | cons alternative alternatives ih =>
    cases i with
    | zero => rfl
    | succ i => exact ih i

end Schema

namespace Writer.Congruence

open Schema

variable {R : Writer Unit → Writer Unit → Prop} (hR : Congruence R)
include hR

theorem throw (e : EncodeError) : R (MonadExcept.throw e) (MonadExcept.throw e) :=
  hR.refl (Uniform.throw e)

theorem forM {α : Type} {put put' : α → Writer Unit} {items : List α}
    (hput : ∀ a ∈ items, R (put a) (put' a)) : R (items.forM put) (items.forM put') := by
  induction items with
  | nil => exact hR.refl (Uniform.pure ())
  | cons a items ih => exact hR.seq (hput a (by simp)) (ih fun b hb => hput b (by simp [hb]))

theorem putCounted {α : Type} {put put' : α → Writer Unit} {items : List α}
    (hput : ∀ a ∈ items, R (put a) (put' a)) : R (putCounted put items) (putCounted put' items) :=
  hR.seq (hR.refl (Uniform.putCount _)) (hR.forM hput)

section

variable {ι ω : Type} {self self' : ι → Value → Writer Unit} {defs : Definitions ι ω}

theorem writeAll {items : List (Schema ι ω)} {vs : List Value}
    (hitems : ∀ (i : Nat) item v, items[i]? = some item → vs[i]? = some v →
      R (item.writeWith self v) (item.writeWith self' v)) :
    R (writeAll self items vs) (writeAll self' items vs) := by
  induction items generalizing vs with
  | nil =>
    cases vs with
    | nil => exact hR.refl (Uniform.pure ())
    | cons v vs => exact hR.throw _
  | cons item items ih =>
    cases vs with
    | nil => exact hR.throw _
    | cons v vs =>
      rw [Schema.writeAll, Schema.writeAll]
      exact hR.seq (hitems 0 item v rfl rfl) (ih fun i => hitems (i + 1))

theorem writeAt {fields : List (Schema ι ω)} {vs : List Value} {i : Nat}
    (hfield : ∀ field v, fields[i]? = some field → vs[i]? = some v →
      R (field.writeWith self v) (field.writeWith self' v)) :
    R (writeAt self fields vs i) (writeAt self' fields vs i) := by
  rw [writeAt_eq, writeAt_eq]
  cases hget : fields[i]? with
  | none => exact hR.throw _
  | some field =>
    cases hvalue : vs[i]? with
    | none => exact hR.throw _
    | some v => exact hfield field v hget hvalue

theorem putPacked (v : Value) : R (putPacked v) (putPacked v) := by
  apply hR.refl
  unfold Writer.putPacked
  split
  · exact Uniform.putByte _
  · exact Uniform.putByte _
  · exact Uniform.putByte _
  · exact Uniform.throw _

/-- Two ways of writing a value are related when those of writing its parts are. -/
theorem writeWith {s : Schema ι ω} {v : Value} (href : ∀ name, s ≠ .ref name)
    (hparts : ∀ t w, defs.PartOf s v t w → R (t.writeWith self w) (t.writeWith self' w)) :
    R (s.writeWith self v) (s.writeWith self' v) := by
  cases s with
  | unit => exact hR.refl (Uniform.pure ())
  | bool =>
    cases v with
    | bool b => exact hR.refl (Uniform.putByte _)
    | _ => exact hR.throw _
  | int t =>
    cases v with
    | int n => exact hR.refl (Uniform.putSpan _)
    | _ => exact hR.throw _
  | wide width =>
    cases v with
    | int n => exact hR.refl (Uniform.putSpan _)
    | _ => exact hR.throw _
  | compact t =>
    cases v with
    | int n => exact hR.refl (Uniform.putCompact n)
    | _ => exact hR.throw _
  | text =>
    cases v with
    | text s => exact hR.seq (hR.refl (Uniform.putCount _)) (hR.refl (Uniform.putSpan _))
    | _ => exact hR.throw _
  | blob =>
    cases v with
    | blob bytes => exact hR.seq (hR.refl (Uniform.putCount _)) (hR.refl (Uniform.putSpan _))
    | _ => exact hR.throw _
  | bits =>
    cases v with
    | bits b => exact hR.seq (hR.refl (Uniform.putCount _)) (hR.refl (Uniform.putSpan _))
    | _ => exact hR.throw _
  | option content =>
    rw [Schema.writeWith, Schema.writeWith]
    split
    · exact hR.putPacked v
    · cases v with
      | absent => exact hR.refl (Uniform.putByte 0)
      | present w => exact hR.seq (hR.refl (Uniform.putByte 1)) (hparts content w .content)
      | _ => exact hR.throw _
  | result success failure =>
    cases v with
    | tagged i w =>
      match i with
      | 0 => exact hR.seq (hR.refl (Uniform.putByte 0)) (hparts success w .success)
      | 1 => exact hR.seq (hR.refl (Uniform.putByte 1)) (hparts failure w .failure)
      | _ + 2 => exact hR.throw _
    | _ => exact hR.throw _
  | sequence kind item =>
    cases v with
    | list vs => exact hR.putCounted fun w hw => hparts item w (.item hw)
    | _ => exact hR.throw _
  | set keys item =>
    cases v with
    | list vs => exact hR.putCounted fun w hw => hparts item w (.member hw)
    | _ => exact hR.throw _
  | map keys key value =>
    cases v with
    | list entries =>
      refine hR.putCounted fun entry hentry => ?_
      split
      · exact hR.seq (hparts key _ (.key hentry)) (hparts value _ (.value hentry))
      · exact hR.throw _
    | _ => exact hR.throw _
  | array count item =>
    cases v with
    | list vs => exact hR.forM fun w hw => hparts item w (.element hw)
    | _ => exact hR.throw _
  | tuple items =>
    cases v with
    | list vs => exact hR.writeAll fun i item w hitem hw => hparts item w (.component hitem hw)
    | _ => exact hR.throw _
  | pointer pointee => exact hparts pointee v .pointee
  | weak writeOnly pointee =>
    cases v with
    | dangling => exact hR.throw _
    | _ => exact hparts pointee _ .target
  | encoded writeOnly =>
    cases v with
    | blob bytes => exact hR.refl (Uniform.putSpan _)
    | _ => exact hR.throw _
  | record labels selection fields =>
    cases v with
    | list vs =>
      exact hR.forM fun i hi => hR.writeAt fun field w hfield hw =>
        hparts field w (.field hi hfield hw)
    | _ => exact hR.throw _
  | sum names alternatives =>
    cases v with
    | tagged i w =>
      rw [Schema.writeWith, Schema.writeWith]
      dsimp only
      split
      · refine hR.seq (hR.refl (Uniform.putByte _)) ?_
        rw [writeNth_eq, writeNth_eq]
        cases hget : alternatives[i]? with
        | none => exact hR.throw _
        | some alternative => exact hparts alternative w (.alternative hget)
      · exact hR.throw _
    | _ => exact hR.throw _
  | enumeration e =>
    cases v with
    | tagged i w => exact hR.refl (Uniform.putSpan _)
    | _ => exact hR.throw _
  | range r =>
    cases v with
    | int n => exact hR.refl (Uniform.putSpan _)
    | _ => exact hR.throw _
  | ref name => exact absurd rfl (href name)

end

end Writer.Congruence

theorem Writer.congruence_eq : Writer.Congruence Eq where
  refl _ := rfl
  seq := by
    rintro first _ second _ rfl rfl
    rfl

theorem Writer.congruence_uniform : Writer.Congruence fun step _ => Writer.Uniform step where
  refl := id
  seq hfirst hsecond := hfirst.bind fun _ => hsecond

theorem Schema.uniform_writeWith {ι ω : Type} {self : ι → Value → Writer Unit}
    (defs : Definitions ι ω) {s : Schema ι ω} {v : Value} (href : ∀ name, s ≠ .ref name)
    (hparts : ∀ t w, defs.PartOf s v t w → Writer.Uniform (t.writeWith self w)) :
    Writer.Uniform (s.writeWith self v) :=
  @Writer.Congruence.writeWith _ Writer.congruence_uniform ι ω self self defs s v href hparts

/-- Writing as a function that follows the schema of a value. -/
def Traversal.writing (ι ω : Type) : Traversal ι ω (Writer Unit) where
  run := Schema.writeWith
  exhausted := throw .illTyped
  run_ref self name v := by rw [Schema.writeWith]
  run_congr _ _ _ href hparts := Writer.congruence_eq.writeWith href hparts

namespace Definitions

variable {ι ω : Type} (defs : Definitions ι ω)

theorem writeRef_eq (depth : Nat) : defs.writeRef depth = (Traversal.writing ι ω).runRef defs depth := by
  induction depth with
  | zero => rfl
  | succ depth ih =>
    funext name v
    rw [writeRef, ih]
    rfl

theorem write_eq_full (s : Schema ι ω) (v : Value) :
    defs.write s v = (Traversal.writing ι ω).full defs s v := by
  rw [write, writeRef_eq]
  rfl

/-- Writing is given by what is written for recursive types. -/
theorem write_eq (s : Schema ι ω) (v : Value) :
    defs.write s v = s.writeWith (fun name => defs.write (.ref name)) v := by
  have hself : (fun name => defs.write (.ref name)) =
      fun name => (Traversal.writing ι ω).full defs (.ref name) := by
    funext name w
    exact defs.write_eq_full (.ref name) w
  rw [write_eq_full, Traversal.full_eq, hself]
  rfl

/-- A recursive type is written like what its name stands for. -/
theorem write_ref (name : ι) (v : Value) : defs.write (.ref name) v = defs.write (defs.body name) v := by
  rw [write_eq_full, Traversal.full_ref, ← write_eq_full]

/-- What is written for a value depends on the sink by its scheme only. -/
theorem uniform_write (s : Schema ι ω) (v : Value) : Writer.Uniform (defs.write s v) := by
  induction s, v using defs.valueInduction with
  | step s v ih =>
    by_cases href : ∃ name, s = .ref name
    · obtain ⟨name, rfl⟩ := href
      rw [write_ref]
      exact ih _ v .body
    · rw [write_eq]
      refine Schema.uniform_writeWith defs (fun name hs => href ⟨name, hs⟩) fun t w hpart => ?_
      rw [← write_eq]
      exact ih t w hpart

end Definitions

end Scale
