import Scale.Proofs.Overwriting.Steps
import Scale.Proofs.Safety.Reading

namespace Scale.Checked

variable {ι : Type}

/-- Reads over the old items that are kept, and reads as many others as are missing. -/
def refill (renew : Value → Reading Value) (item : Reading Value) (count : Nat) (olds : List Value) :
    Reading (List Value) := do
  let kept := olds.take count
  let front ← kept.mapM renew
  let missing ← check (Word.sub count kept.length)
  let back ← readMany item missing
  return front ++ back

mutual

/-- Reads over a value of a schema, with `self` and `selfOver` for the recursive types. -/
def overwriteWith (named : ι → Layout) (self : ι → Reading Value)
    (selfOver : ι → Value → Reading Value) : Schema ι Empty → Value → Reading Value
  | .sequence .vector item => fun old => do
    let count ← takeItemCount (item.size named) maxCount
    return .list (← refill (overwriteWith named self selfOver item) (readWith named self item) count
      old.items)
  | .array _ item => fun old => do
    return .list (← old.items.mapM (overwriteWith named self selfOver item))
  | .tuple items => fun old => do
    return .list (← overwriteAll named self selfOver items old.items)
  | .record labels selection fields => fun old =>
    if selection.order.length = fields.length then
      readWith named self (.record labels selection fields)
    else do
      let vs ← selection.order.mapM fun i => overwriteAt named self selfOver fields old.items i
      return .list (Value.place selection.order vs old.items)
  | .ref name => selfOver name
  | s => fun _ => readWith named self s

/-- Reads over one value after the other. -/
def overwriteAll (named : ι → Layout) (self : ι → Reading Value)
    (selfOver : ι → Value → Reading Value) :
    List (Schema ι Empty) → List Value → Reading (List Value)
  | [], _ => return []
  | s :: ss, old :: olds => do
    let v ← overwriteWith named self selfOver s old
    let vs ← overwriteAll named self selfOver ss olds
    return v :: vs
  | _ :: _, [] => throw (.fault .outOfRange)

/-- Reads over the value at an index. -/
def overwriteAt (named : ι → Layout) (self : ι → Reading Value)
    (selfOver : ι → Value → Reading Value) : List (Schema ι Empty) → List Value → Nat → Reading Value
  | s :: _, old :: _, 0 => overwriteWith named self selfOver s old
  | _ :: ss, _ :: olds, i + 1 => overwriteAt named self selfOver ss olds i
  | _, _, _ => throw (.fault .outOfRange)

end

section

variable (defs : Definitions ι Empty)

/-- Reads over a value of a recursive type whose calls nest no deeper than `depth`. -/
def overwriteRef : Nat → ι → Value → Reading Value
  | 0, _, _ => throw (.refused .notEnoughData)
  | depth + 1, name, old =>
    overwriteWith defs.layout (readRef defs depth) (overwriteRef depth) (defs.body name) old

/-- Reads over a value. -/
def overwrite (s : Schema ι Empty) (old : Value) : Reading Value := do
  let depth := (← lift Reader.remaining) + 1
  overwriteWith defs.layout (readRef defs depth) (overwriteRef defs depth) s old

end

/-- Old items are read over one by one before new ones are read. -/
theorem overwriteOnto_eq_mapM (renew : Value → Reader Value) (item : Reader Value) (more : Nat)
    (olds done : List Value) :
    Reader.overwriteOnto renew item more olds done = (do
      let front ← olds.mapM renew
      let back ← Reader.readMany more item
      return done.reverse ++ (front ++ back)) := by
  induction olds generalizing done with
  | nil =>
    simp only [Reader.overwriteOnto, Reader.readManyOnto_eq, List.mapM_nil, pure_bind, List.nil_append]
  | cons old olds ih =>
    rw [Reader.overwriteOnto, List.mapM_cons]
    simp only [ih, bind_assoc, pure_bind, List.reverse_cons, List.append_assoc, List.cons_append,
      List.nil_append]

theorem overwriteMany_eq_mapM (renew : Value → Reader Value) (item : Reader Value) (count : Nat)
    (olds : List Value) :
    Reader.overwriteMany renew item count olds = (do
      let front ← (olds.take count).mapM renew
      let back ← Reader.readMany (count - (olds.take count).length) item
      return front ++ back) :=
  overwriteOnto_eq_mapM renew item _ _ []

theorem refill_eq {renew' : Value → Reading Value} {renew : Value → Reader Value} {item : Reader Value}
    {count : Nat} {olds : List Value} (hrenew : ∀ old ∈ olds, renew' old = lift (renew old)) :
    refill renew' (lift item) count olds = lift (Reader.overwriteMany renew item count olds) := by
  have hkept : (olds.take count).length ≤ count := List.length_take_le count olds
  rw [refill, overwriteMany_eq_mapM, mapM_lift fun old hold => hrenew old (List.mem_of_mem_take hold),
    Word.sub_of_le hkept, check_ok]
  refine lift_bind_congr fun {_ front _} _ => ?_
  rw [pure_bind, readMany_eq]
  exact lift_map _ _

/-- No item is missing where as many as there are to be are read over. -/
theorem overwriteMany_of_length {renew : Value → Reader Value} {item : Reader Value} {count : Nat}
    {olds : List Value} (hlength : olds.length = count) :
    Reader.overwriteMany renew item count olds = olds.mapM renew := by
  have hnone : Reader.readMany 0 item = pure [] := rfl
  rw [overwriteMany_eq_mapM, List.take_of_length_le (Nat.le_of_eq hlength), hlength, Nat.sub_self,
    hnone]
  simp only [pure_bind, List.append_nil, bind_pure]

section

variable {named : ι → Layout} {self' : ι → Reading Value} {self : ι → Reader Value}
  {selfOver' : ι → Value → Reading Value} {selfOver : ι → Value → Reader Value}

theorem overwriteAll_eq {items : List (Schema ι Empty)} {olds : List Value}
    (hlength : olds.length = items.length)
    (hitems : ∀ (i : Nat) item old, items[i]? = some item → olds[i]? = some old →
      overwriteWith named self' selfOver' item old =
        lift (item.overwriteWith named self selfOver old)) :
    overwriteAll named self' selfOver' items olds =
      lift (Schema.overwriteAll named self selfOver items olds) := by
  induction items generalizing olds with
  | nil =>
    obtain rfl := List.length_eq_zero_iff.1 hlength
    rfl
  | cons item items ih =>
    obtain ⟨old, olds, rfl⟩ := List.exists_cons_of_length_eq_add_one hlength
    rw [overwriteAll, hitems 0 item old rfl rfl, ih (Nat.succ.inj hlength) fun i => hitems (i + 1)]
    exact lift_bind_congr fun _ => lift_map _ _

/-- What is read at an index that there is. -/
theorem overwriteAt_of_getElem? {fields : List (Schema ι Empty)} {olds : List Value} {i : Nat}
    {field : Schema ι Empty} {old : Value} (hfield : fields[i]? = some field)
    (hold : olds[i]? = some old) :
    overwriteAt named self' selfOver' fields olds i =
      overwriteWith named self' selfOver' field old := by
  induction fields generalizing olds i with
  | nil => cases hfield
  | cons other fields ih =>
    cases olds with
    | nil => cases hold
    | cons first olds =>
      cases i with
      | zero => cases hfield; cases hold; rfl
      | succ i => exact ih hfield hold

variable {defs : Definitions ι Empty}

theorem overwriteAt_eq {labels : Labels} {selection : Selection} {fields : List (Schema ι Empty)}
    {olds : List Value} {i : Nat} (hadmissible : (Schema.record labels selection fields).Admissible)
    (hlength : olds.length = fields.length)
    (hparts : ∀ part w, defs.PartOf (.record labels selection fields) (.list olds) part w →
      overwriteWith named self' selfOver' part w = lift (part.overwriteWith named self selfOver w))
    (hi : i ∈ selection.order) :
    overwriteAt named self' selfOver' fields olds i =
      lift (Schema.overwriteAt named self selfOver fields olds i) := by
  have hlt := hadmissible.2 i hi
  have hfield : fields[i]? = some fields[i] := List.getElem?_eq_getElem hlt
  have holds : i < olds.length := hlength ▸ hlt
  have hold : olds[i]? = some olds[i] := List.getElem?_eq_getElem holds
  rw [overwriteAt_of_getElem? hfield hold, Schema.overwriteAt_eq, hfield, hold]
  exact hparts _ _ (.field hi hfield hold)

/-- A value is read over by checked operations as it is read over when its parts are. -/
theorem overwriteWith_of_parts {s : Schema ι Empty} {old : Value} (hadmissible : s.Admissible)
    (hadmits : s.Admits old)
    (hread : ∀ t, t = s ∨ t ∈ s.parts → readWith named self' t = lift (t.readWith named self))
    (href : ∀ name, s ≠ .ref name)
    (hparts : ∀ part w, defs.PartOf s old part w →
      overwriteWith named self' selfOver' part w = lift (part.overwriteWith named self selfOver w)) :
    overwriteWith named self' selfOver' s old = lift (s.overwriteWith named self selfOver old) := by
  cases s with
  | sequence kind item =>
    cases kind with
    | vector =>
      cases old with
      | list olds =>
        rw [overwriteWith, takeItemCount_eq, hread item (by simp [Schema.parts])]
        refine lift_bind_congr fun {_ count _} _ => ?_
        rw [Value.items, refill_eq fun w hw => hparts item w (.item hw)]
        exact lift_map _ _
      | _ => cases hadmits
    | _ => exact hread _ (.inl rfl)
  | array count item =>
    cases old with
    | list olds =>
      rw [overwriteWith, Schema.overwriteWith]
      dsimp only [Value.items]
      rw [overwriteMany_of_length hadmits, mapM_lift fun w hw => hparts item w (.element hw)]
      exact lift_map _ _
    | _ => cases hadmits
  | tuple items =>
    cases old with
    | list olds =>
      rw [overwriteWith, Schema.overwriteWith]
      dsimp only [Value.items]
      rw [overwriteAll_eq hadmits fun i item w hitem hw => hparts item w (.component hitem hw)]
      exact lift_map _ _
    | _ => cases hadmits
  | record labels selection fields =>
    cases old with
    | list olds =>
      rw [overwriteWith, Schema.overwriteWith]
      dsimp only [Value.items]
      split
      · exact hread _ (.inl rfl)
      · rw [mapM_lift fun i hi => overwriteAt_eq hadmissible hadmits hparts hi]
        exact lift_map _ _
    | _ => cases hadmits
  | ref name => exact absurd rfl (href name)
  | weak writeOnly _ => exact writeOnly.elim
  | encoded writeOnly => exact writeOnly.elim
  | _ => exact hread _ (.inl rfl)

/-- A value of a well-formed schema is read over by checked operations as it is read over when the
    recursive types are. -/
theorem overwriteWith_eq {s : Schema ι Empty} {old : Value} (hwell : defs.WellFormed s)
    (htype : defs.HasType s old)
    (hself : ∀ name, defs.Occurs s (.ref name) → self' name = lift (self name))
    (hselfOver : ∀ name w, defs.Occurs s (.ref name) → defs.HasType (.ref name) w →
      selfOver' name w = lift (selfOver name w)) :
    overwriteWith named self' selfOver' s old = lift (s.overwriteWith named self selfOver old) := by
  induction s, old using defs.valueInduction with
  | step s old ih =>
    -- a name is read over by what is given for it, and its body is not entered here
    by_cases href : ∃ name, s = .ref name
    · obtain ⟨name, rfl⟩ := href
      exact hselfOver name old (.refl _) htype
    · have hread : ∀ t, defs.Occurs s t → readWith named self' t = lift (t.readWith named self) :=
        fun t hoccurs => readWith_eq (fun u hu => hwell u (hoccurs.trans hu)) fun name hname =>
          hself name (hoccurs.trans hname)
      refine overwriteWith_of_parts (hwell s (.refl s)) (htype s old (.refl s old)) ?_
        (fun name hs => href ⟨name, hs⟩) fun part w (hpart : defs.PartOf s old part w) => ?_
      · rintro t (rfl | hpart)
        · exact hread t (.refl t)
        · exact hread t (.part hpart (.refl t))
      · exact ih part w hpart (hpart.forall_occurs hwell) (Definitions.forall_within_part htype hpart)
          (fun name hname => hself name (hpart.occurs.trans hname))
          fun name x hname => hselfOver name x (hpart.occurs.trans hname)

end

section

variable {defs : Definitions ι Empty}

theorem overwriteRef_eq (depth : Nat) {name : ι} {old : Value} (hwell : defs.WellFormed (.ref name))
    (htype : defs.HasType (.ref name) old) :
    overwriteRef defs depth name old = lift (defs.overwriteRef depth name old) := by
  induction depth generalizing name old with
  | zero => rfl
  | succ depth ih =>
    have hbody := Definitions.forall_occurs_body hwell
    have hnames : ∀ other, defs.Occurs (defs.body name) (.ref other) → defs.WellFormed (.ref other) :=
      fun other hoccurs t ht => hbody t (hoccurs.trans ht)
    exact overwriteWith_eq hbody (Definitions.forall_within_part htype .body)
      (fun other hoccurs => readRef_eq depth (hnames other hoccurs))
      fun other w hoccurs hw => ih (hnames other hoccurs) hw

/-- Reading over a value by checked operations is reading over it. -/
theorem overwrite_eq {s : Schema ι Empty} {old : Value} (hwell : defs.WellFormed s)
    (htype : defs.HasType s old) : overwrite defs s old = lift (defs.overwrite s old) := by
  have hnames : ∀ name, defs.Occurs s (.ref name) → defs.WellFormed (.ref name) :=
    fun name hoccurs t ht => hwell t (hoccurs.trans ht)
  refine lift_bind_congr fun {_ remaining _} _ => ?_
  exact overwriteWith_eq hwell htype (fun name hoccurs => readRef_eq _ (hnames name hoccurs))
    fun name w hoccurs hw => overwriteRef_eq _ (hnames name hoccurs) hw

end

end Scale.Checked
