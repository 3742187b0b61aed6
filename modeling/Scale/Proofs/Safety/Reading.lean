import Scale.Proofs.Reading.Leads
import Scale.Proofs.Safety.Counted
import Scale.Proofs.Schema.Typing

namespace Scale.Checked

variable {ι : Type}

/-- The items of an array of a known length. -/
def arrayOf (count : Nat) (vs : List Value) : Except Fault Value := do
  assert (vs.length = count)
  return .list vs

mutual

/-- Reads a value of a schema, with `self` to read the recursive types. -/
def readWith (named : ι → Layout) (self : ι → Reading Value) : Schema ι Empty → Reading Value
  | .unit => return .unit
  | .bool => return .bool (← takeBool)
  | .int t => return .int (← takeFixed t)
  | .wide width => return .int (← takeWide width)
  | .compact t => return .int (← takeCompact t)
  | .text => return .text (← takeText)
  | .blob => return .blob (← takeCountedSpan)
  | .bits => return .bits (← takeBits)
  | .option content =>
    if content.isBool then
      takePacked
    else do
      if ← takeBool then
        return .present (← readWith named self content)
      else
        return .absent
  | .result success failure => do
    match ← takeTag 2 with
    | 0 => return .tagged 0 (← readWith named self success)
    | _ => return .tagged 1 (← readWith named self failure)
  | .sequence kind item => do
    let count ← takeItemCount (item.size named) kind.limit
    return .list (← readMany (readWith named self item) count)
  | .set keys item => do
    let count ← takeItemCount (item.size named) maxCount
    return keys.order.set (← readMany (readWith named self item) count)
  | .map keys key value => do
    let count ← takeItemCount ((Schema.tuple [key, value]).size named) maxCount
    let entry : Reading (Value × Value) := do
      let k ← readWith named self key
      let v ← readWith named self value
      return (k, v)
    return keys.order.map (← readMany entry count)
  | .array count item => do
    let vs ← readMany (readWith named self item) count
    check (arrayOf count vs)
  | .tuple items => return .list (← readAll named self items)
  | .pointer pointee => readWith named self pointee
  | .weak writeOnly _ => writeOnly.elim
  | .encoded writeOnly => writeOnly.elim
  | .record _ selection fields => do
    let vs ← selection.order.mapM fun i => readNth named self fields i
    return .list (Value.place selection.order vs (selection.blank fields.length))
  | .sum _ alternatives => do
    let tag ← takeTag alternatives.length
    return .tagged tag (← readNth named self alternatives tag)
  | .enumeration e => return .tagged (← takeCoded e.coding) .unit
  | .range r => return .int (← takeCoded r.coding)
  | .ref name => self name

/-- Reads one value after the other. -/
def readAll (named : ι → Layout) (self : ι → Reading Value) :
    List (Schema ι Empty) → Reading (List Value)
  | [] => return []
  | s :: ss => do
    let v ← readWith named self s
    let vs ← readAll named self ss
    return v :: vs

/-- Reads a value of the schema at an index. -/
def readNth (named : ι → Layout) (self : ι → Reading Value) :
    List (Schema ι Empty) → Nat → Reading Value
  | [], _ => throw (.fault .outOfRange)
  | s :: _, 0 => readWith named self s
  | _ :: ss, i + 1 => readNth named self ss i

end

section

variable (defs : Definitions ι Empty)

/-- Reads a value of a recursive type whose calls nest no deeper than `depth`. -/
def readRef : Nat → ι → Reading Value
  | 0, _ => throw (.refused .notEnoughData)
  | depth + 1, name => readWith defs.layout (readRef depth) (defs.body name)

/-- Reads a value off the source. -/
def read (s : Schema ι Empty) : Reading Value := do
  readWith defs.layout (readRef defs ((← lift Reader.remaining) + 1)) s

end

variable {named : ι → Layout} {self' : ι → Reading Value} {self : ι → Reader Value}

theorem arrayOf_eq {count : Nat} {vs : List Value} (hlength : vs.length = count) :
    arrayOf count vs = .ok (.list vs) := by
  rw [arrayOf, assert_of hlength]
  rfl

theorem readAll_eq_mapM (items : List (Schema ι Empty)) :
    readAll named self' items = items.mapM (readWith named self') := by
  induction items with
  | nil => rfl
  | cons item items ih => rw [readAll, ih, List.mapM_cons]

/-- What is read at an index that there is. -/
theorem readNth_of_getElem? {fields : List (Schema ι Empty)} {i : Nat} {field : Schema ι Empty}
    (hfield : fields[i]? = some field) :
    readNth named self' fields i = readWith named self' field := by
  induction fields generalizing i with
  | nil => cases hfield
  | cons other fields ih =>
    cases i with
    | zero => cases hfield; rfl
    | succ i => exact ih hfield

theorem readNth_eq {fields : List (Schema ι Empty)} {i : Nat} (hi : i < fields.length)
    (hfields : ∀ field, fields[i]? = some field →
      readWith named self' field = lift (field.readWith named self)) :
    readNth named self' fields i = lift (Schema.readNth named self fields i) := by
  have hget : fields[i]? = some fields[i] := List.getElem?_eq_getElem hi
  rw [readNth_of_getElem? hget, Schema.readNth_eq, hget]
  exact hfields _ hget

theorem readNth_of_record {labels : Labels} {selection : Selection} {fields : List (Schema ι Empty)}
    {i : Nat} (hadmissible : (Schema.record labels selection fields).Admissible)
    (hparts : ∀ part ∈ (Schema.record labels selection fields).parts,
      readWith named self' part = lift (part.readWith named self)) (hi : i ∈ selection.order) :
    readNth named self' fields i = lift (Schema.readNth named self fields i) :=
  readNth_eq (hadmissible.2 i hi) fun field hfield =>
    hparts field (Schema.mem_parts_record hi hfield)

/-- A schema is read by checked operations as it is read when its parts are. -/
theorem readWith_of_parts {s : Schema ι Empty} (hadmissible : s.Admissible)
    (hself : ∀ name, s = .ref name → self' name = lift (self name))
    (hparts : ∀ part ∈ s.parts, readWith named self' part = lift (part.readWith named self)) :
    readWith named self' s = lift (s.readWith named self) := by
  cases s with
  | unit => rfl
  | bool =>
    rw [readWith, takeBool_eq]
    exact lift_map _ _
  | int t =>
    rw [readWith, takeFixed_eq]
    exact lift_map _ _
  | wide width =>
    rw [readWith, takeWide_eq, Schema.readWith, lift_bind, bind_assoc]
    exact lift_map _ _
  | compact t =>
    rw [readWith, takeCompact_eq]
    exact lift_map _ _
  | text =>
    rw [readWith, takeText_eq]
    exact lift_map _ _
  | blob =>
    rw [readWith, takeCountedSpan_eq]
    exact lift_map _ _
  | bits =>
    rw [readWith, takeBits_eq]
    exact lift_map _ _
  | option content =>
    rw [readWith, Schema.readWith]
    split
    · exact takePacked_eq
    · rw [takeBool_eq, hparts content (by simp [Schema.parts])]
      refine lift_bind_congr fun {_ there _} _ => ?_
      cases there with
      | true => exact lift_map _ _
      | false => rfl
  | result success failure =>
    rw [readWith, takeTag_eq (by decide), hparts success (by simp [Schema.parts]),
      hparts failure (by simp [Schema.parts])]
    refine lift_bind_congr fun {_ tag _} _ => ?_
    cases tag with
    | zero => exact lift_map _ _
    | succ tag => exact lift_map _ _
  | sequence kind item =>
    rw [readWith, takeItemCount_eq, hparts item (by simp [Schema.parts])]
    refine lift_bind_congr fun {_ count _} _ => ?_
    rw [readMany_eq]
    exact lift_map _ _
  | set keys item =>
    rw [readWith, takeItemCount_eq, hparts item (by simp [Schema.parts])]
    refine lift_bind_congr fun {_ count _} _ => ?_
    rw [readMany_eq]
    exact lift_map _ _
  | map keys key value =>
    have hentry : (do
        let k ← lift (key.readWith named self)
        let v ← lift (value.readWith named self)
        return (k, v)) = lift (do
        let k ← key.readWith named self
        let v ← value.readWith named self
        return (k, v)) :=
      lift_bind_congr fun _ => lift_bind_congr fun _ => rfl
    rw [readWith, takeItemCount_eq, hparts key (by simp [Schema.parts]),
      hparts value (by simp [Schema.parts])]
    refine lift_bind_congr fun {_ count _} _ => ?_
    dsimp only
    rw [hentry, readMany_eq]
    exact lift_map _ _
  | array count item =>
    rw [readWith, hparts item (by simp [Schema.parts]), readMany_eq]
    refine lift_bind_congr fun {_ vs _} hread => ?_
    rw [arrayOf_eq (Reader.length_of_readMany hread)]
    rfl
  | tuple items =>
    have hitems : items.mapM (readWith named self') = lift (items.mapM (Schema.readWith named self)) :=
      mapM_lift hparts
    rw [readWith, Schema.readWith, readAll_eq_mapM, Schema.readAll_eq_mapM, hitems]
    exact lift_map _ _
  | pointer pointee => exact hparts pointee (by simp [Schema.parts])
  | weak writeOnly _ => exact writeOnly.elim
  | encoded writeOnly => exact writeOnly.elim
  | record labels selection fields =>
    rw [readWith, mapM_lift fun i hi => readNth_of_record hadmissible hparts hi]
    exact lift_map _ _
  | sum names alternatives =>
    rw [readWith, takeTag_eq hadmissible]
    refine lift_bind_congr fun {_ tag _} htake => ?_
    rw [readNth_eq (Reader.lt_of_takeTag htake) fun alternative hget =>
      hparts alternative (List.mem_of_getElem? hget)]
    exact lift_map _ _
  | enumeration e =>
    rw [readWith, takeCoded_eq]
    exact lift_map _ _
  | range r =>
    rw [readWith, takeCoded_eq]
    exact lift_map _ _
  | ref name => exact hself name rfl

variable {defs : Definitions ι Empty}

/-- A well-formed schema is read by checked operations as it is read when the recursive types are. -/
theorem readWith_eq {s : Schema ι Empty} (hwell : defs.WellFormed s)
    (hself : ∀ name, defs.Occurs s (.ref name) → self' name = lift (self name)) :
    readWith named self' s = lift (s.readWith named self) := by
  induction s using Schema.partInduction with
  | step s ih =>
    refine readWith_of_parts (hwell s (.refl s)) (fun name hs => hself name (hs ▸ .refl _)) ?_
    exact fun part hpart => ih part hpart (Definitions.forall_occurs_part hwell hpart)
      fun name hoccurs => hself name (.part hpart hoccurs)

theorem readRef_eq (depth : Nat) {name : ι} (hwell : defs.WellFormed (.ref name)) :
    readRef defs depth name = lift (defs.readRef depth name) := by
  induction depth generalizing name with
  | zero => rfl
  | succ depth ih =>
    -- whatever name stands in the body is well-formed as well, since the body leads to it
    have hbody := Definitions.forall_occurs_body hwell
    refine readWith_eq hbody fun other hoccurs => ih ?_
    exact fun t ht => hbody t (hoccurs.trans ht)

/-- Reading by checked operations is reading. -/
theorem read_eq {s : Schema ι Empty} (hwell : defs.WellFormed s) :
    read defs s = lift (defs.read s) := by
  refine lift_bind_congr fun {_ remaining _} _ => ?_
  exact readWith_eq hwell fun name hoccurs =>
    readRef_eq (remaining + 1) fun t ht => hwell t (hoccurs.trans ht)

end Scale.Checked
