import Scale.Decode
import Scale.Proofs.Counts
import Scale.Proofs.Schema.Parts

namespace Scale

theorem Schema.readNth_eq {ι : Type} (named : ι → Layout) (self : ι → Reader Value)
    (fields : List (Schema ι Empty)) (i : Nat) :
    readNth named self fields i =
      match fields[i]? with
      | some field => field.readWith named self
      | none => throw .wrongTypeIndex := by
  induction fields generalizing i with
  | nil => rfl
  | cons field fields ih =>
    cases i with
    | zero => rfl
    | succ i => exact ih i

/-- A relation between reading steps that sequencing keeps. -/
structure Reader.Congruence (R : {α : Type} → Reader α → Reader α → Prop) : Prop where
  pure : ∀ {α : Type} (a : α), R (Pure.pure a : Reader α) (Pure.pure a)
  throw : ∀ {α : Type} (e : DecodeError), R (MonadExcept.throw e : Reader α) (MonadExcept.throw e)
  bind : ∀ {α β : Type} {step step' : Reader α} {next next' : α → Reader β},
    R step step' → (∀ a, R (next a) (next' a)) → R (step >>= next) (step' >>= next')
  takeByte : R Reader.takeByte Reader.takeByte
  read : ∀ amount, R (Reader.read amount) (Reader.read amount)
  need : ∀ amount, R (Reader.need amount) (Reader.need amount)
  scheme : R Reader.scheme Reader.scheme

namespace Reader.Congruence

variable {R : {α : Type} → Reader α → Reader α → Prop} (hR : Congruence R)
include hR

theorem map {α β : Type} {step step' : Reader α} (f : α → β) (hstep : R step step') :
    R (step >>= fun a => Pure.pure (f a)) (step' >>= fun a => Pure.pure (f a)) :=
  hR.bind hstep fun a => hR.pure (f a)

theorem ofExcept {α : Type} (result : Except DecodeError α) :
    R (MonadExcept.ofExcept result : Reader α) (MonadExcept.ofExcept result) := by
  cases result with
  | ok a => exact hR.pure a
  | error e => exact hR.throw e

theorem takeClassic : R Classic.take Classic.take := by
  have haccept : ∀ limit n, R (Classic.accept limit n) (Classic.accept limit n) := by
    intro limit n
    unfold Classic.accept
    split
    · exact hR.throw _
    · exact hR.pure _
  refine hR.bind hR.takeByte fun first => ?_
  rcases Classic.Form.mode_cases first with hmode | hmode | hmode | hmode
  all_goals simp only [hmode]
  · exact hR.pure _
  · exact hR.bind hR.takeByte fun second => haccept _ _
  · exact hR.bind (hR.read 3) fun rest => haccept _ _
  · rw [Classic.takeLong_eq]
    refine hR.bind (hR.need _) fun _ => hR.bind (hR.read _) fun digits => ?_
    split
    · exact hR.throw _
    · exact hR.pure _

theorem takeJam : R Jam.take Jam.take := by
  refine hR.bind hR.takeByte fun first => hR.bind (hR.read _) fun low => ?_
  dsimp only
  split
  · exact hR.throw _
  · exact hR.pure _

theorem takeDigits : R takeDigits takeDigits := by
  refine hR.bind hR.scheme fun scheme => ?_
  cases scheme with
  | classic => exact hR.takeClassic
  | jam => exact hR.takeJam

theorem takeCompact (t : IntegerType) : R (takeCompact t) (takeCompact t) :=
  hR.bind hR.takeDigits fun digits => hR.ofExcept (t.ofDigits digits)

theorem takeCount (limit : Nat) : R (takeCount limit) (takeCount limit) := by
  refine hR.bind (hR.takeCompact _) fun count => ?_
  split
  · exact hR.bind (hR.throw _) fun _ => hR.pure _
  · exact hR.bind (hR.pure _) fun _ => hR.pure _

theorem takeItemCount (itemSize limit : Nat) :
    R (takeItemCount itemSize limit) (takeItemCount itemSize limit) := by
  rw [takeItemCount_eq]
  refine hR.bind (hR.takeCount _) fun count => ?_
  split
  · exact hR.bind (hR.need count) fun _ => hR.pure count
  · exact hR.pure count

theorem readMany {α : Type} {item item' : Reader α} (hitem : R item item') (n : Nat) :
    R (readMany n item) (readMany n item') := by
  induction n with
  | zero => exact hR.pure []
  | succ n ih =>
    rw [readMany_succ, readMany_succ]
    exact hR.bind hitem fun a => hR.map (a :: ·) ih

theorem mapM {α β : Type} {step step' : α → Reader β} {items : List α}
    (hstep : ∀ a ∈ items, R (step a) (step' a)) : R (items.mapM step) (items.mapM step') := by
  induction items with
  | nil => exact hR.pure []
  | cons a items ih =>
    rw [List.mapM_cons, List.mapM_cons]
    exact hR.bind (hstep a (by simp)) fun b =>
      hR.map (b :: ·) (ih fun other hother => hstep other (by simp [hother]))

theorem takeBool : R takeBool takeBool := by
  refine hR.bind hR.takeByte fun byte => ?_
  split
  · exact hR.pure _
  · exact hR.pure _
  · exact hR.throw _

theorem takePacked : R takePacked takePacked := by
  refine hR.bind hR.takeByte fun byte => ?_
  split
  · exact hR.pure _
  · exact hR.pure _
  · exact hR.pure _
  · exact hR.throw _

theorem takeTag (alternatives : Nat) : R (takeTag alternatives) (takeTag alternatives) := by
  refine hR.bind hR.takeByte fun tag => ?_
  split
  · exact hR.pure _
  · exact hR.throw _

theorem takeCountedSpan : R takeCountedSpan takeCountedSpan := by
  refine hR.bind (hR.takeCount _) fun count => ?_
  rw [readSpan_eq_read]
  exact hR.read count

theorem takeText : R takeText takeText := by
  refine hR.bind hR.takeCountedSpan fun bytes => ?_
  split
  · exact hR.pure _
  · exact hR.throw _

theorem takeBits : R BitSeq.take BitSeq.take := by
  rw [BitSeq.take_eq]
  refine hR.bind (hR.takeCount _) fun count => hR.bind (hR.need _) fun _ =>
    hR.bind (hR.read _) fun bytes => ?_
  split
  · exact hR.pure _
  · exact hR.throw _

theorem takeCoded {α : Type} (coding : IntegerCoding α) : R coding.take coding.take := by
  refine hR.bind (hR.map _ (hR.read _)) fun n => ?_
  split
  · exact hR.pure _
  · exact hR.throw _

section

variable {ι : Type} {named : ι → Layout} {self self' : ι → Reader Value}

theorem readNth {fields : List (Schema ι Empty)} {i : Nat}
    (hfield : ∀ field, fields[i]? = some field →
      R (field.readWith named self) (field.readWith named self')) :
    R (Schema.readNth named self fields i) (Schema.readNth named self' fields i) := by
  rw [Schema.readNth_eq, Schema.readNth_eq]
  cases hget : fields[i]? with
  | none => exact hR.throw _
  | some field => exact hfield field hget

theorem readAll {items : List (Schema ι Empty)}
    (hitems : ∀ item ∈ items, R (item.readWith named self) (item.readWith named self')) :
    R (Schema.readAll named self items) (Schema.readAll named self' items) := by
  induction items with
  | nil => exact hR.pure []
  | cons item items ih =>
    rw [Schema.readAll, Schema.readAll]
    exact hR.bind (hitems item (by simp)) fun v =>
      hR.map (v :: ·) (ih fun other hother => hitems other (by simp [hother]))

/-- Two ways of reading a schema are related when those of reading recursive types are. -/
theorem readWith (hself : ∀ name, R (self name) (self' name)) (s : Schema ι Empty) :
    R (s.readWith named self) (s.readWith named self') := by
  induction s using Schema.partInduction with
  | step s hparts =>
    cases s with
    | unit => exact hR.pure _
    | bool => exact hR.map Value.bool hR.takeBool
    | int t => exact hR.map Value.int (hR.map t.ofBytes (hR.read t.bytes))
    | wide width =>
      exact hR.map (fun n : WideUInt width => Value.int n.val) (hR.map WideUInt.ofBytes (hR.read width))
    | compact t => exact hR.map Value.int (hR.takeCompact t)
    | text => exact hR.map Value.text hR.takeText
    | blob => exact hR.map Value.blob hR.takeCountedSpan
    | bits => exact hR.map Value.bits hR.takeBits
    | option content =>
      rw [Schema.readWith, Schema.readWith]
      split
      · exact hR.takePacked
      · refine hR.bind hR.takeBool fun there => ?_
        cases there with
        | true => exact hR.map Value.present (hparts content (by simp [Schema.parts]))
        | false => exact hR.pure _
    | result success failure =>
      refine hR.bind (hR.takeTag 2) fun tag => ?_
      split
      · exact hR.map (Value.tagged 0) (hparts success (by simp [Schema.parts]))
      · exact hR.map (Value.tagged 1) (hparts failure (by simp [Schema.parts]))
    | sequence kind item =>
      exact hR.bind (hR.takeItemCount _ _) fun count =>
        hR.map Value.list (hR.readMany (hparts item (by simp [Schema.parts])) count)
    | set keys item =>
      exact hR.bind (hR.takeItemCount _ _) fun count =>
        hR.map keys.order.set (hR.readMany (hparts item (by simp [Schema.parts])) count)
    | map keys key value =>
      refine hR.bind (hR.takeItemCount _ _) fun count => hR.map keys.order.map (hR.readMany ?_ count)
      exact hR.bind (hparts key (by simp [Schema.parts])) fun k =>
        hR.map (k, ·) (hparts value (by simp [Schema.parts]))
    | array count item =>
      exact hR.map Value.list (hR.readMany (hparts item (by simp [Schema.parts])) count)
    | tuple items => exact hR.map Value.list (hR.readAll hparts)
    | pointer pointee => exact hparts pointee (by simp [Schema.parts])
    | weak writeOnly _ => exact writeOnly.elim
    | encoded writeOnly => exact writeOnly.elim
    | record labels selection fields =>
      refine hR.map
        (fun vs => Value.list (Value.place selection.order vs (selection.blank fields.length))) ?_
      exact hR.mapM fun i hi => hR.readNth fun field hfield =>
        hparts field (Schema.mem_parts_record hi hfield)
    | sum names alternatives =>
      refine hR.bind (hR.takeTag _) fun tag => hR.map (Value.tagged tag) (hR.readNth ?_)
      exact fun alternative hget => hparts alternative (List.mem_of_getElem? hget)
    | enumeration e => exact hR.map (Value.tagged · .unit) (hR.takeCoded e.coding)
    | range r => exact hR.map Value.int (hR.takeCoded r.coding)
    | ref name => exact hself name

end

end Reader.Congruence

end Scale
