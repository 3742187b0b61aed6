import Scale.Proofs.Safety.Counted
import Scale.Proofs.Writing.Failures

namespace Scale.Checked

variable {ι ω : Type}

/-- Writes an optional truth value in one byte. -/
def putPacked : Value → Writing Unit
  | .absent => lift (Writer.putByte 0)
  | .present (.bool true) => lift (Writer.putByte 1)
  | .present (.bool false) => lift (Writer.putByte 2)
  | _ => throw (.fault .unreachable)

mutual

/-- Writes a value of a schema, with `self` to write the recursive types. -/
def writeWith (self : ι → Value → Writing Unit) : Schema ι ω → Value → Writing Unit
  | .unit => fun _ => return ()
  | .bool => fun
    | .bool b => lift (Writer.putBool b)
    | _ => throw (.fault .unreachable)
  | .int t => fun
    | .int n => putFixed t n
    | _ => throw (.fault .unreachable)
  | .wide width => fun
    | .int n => putWide width n.toNat
    | _ => throw (.fault .unreachable)
  | .compact t => fun
    | .int n => putCompact t n
    | _ => throw (.fault .unreachable)
  | .text => fun
    | .text s => putCountedSpan s.toUTF8.data.toList
    | _ => throw (.fault .unreachable)
  | .blob => fun
    | .blob bytes => putCountedSpan bytes
    | _ => throw (.fault .unreachable)
  | .bits => fun
    | .bits b => putBits b
    | _ => throw (.fault .unreachable)
  | .option content => fun v =>
    if content.isBool then
      putPacked v
    else
      match v with
      | .absent => lift (Writer.putByte 0)
      | .present w => do
        lift (Writer.putByte 1)
        writeWith self content w
      | _ => throw (.fault .unreachable)
  | .result success failure => fun
    | .tagged 0 v => do
      putTag 0
      writeWith self success v
    | .tagged 1 v => do
      putTag 1
      writeWith self failure v
    | _ => throw (.fault .unreachable)
  | .sequence _ item => fun
    | .list vs => putCounted (writeWith self item) vs
    | _ => throw (.fault .unreachable)
  | .set _ item => fun
    | .list vs => putCounted (writeWith self item) vs
    | _ => throw (.fault .unreachable)
  | .map _ key value => fun
    | .list entries =>
      putCounted
        (fun
          | .list [k, v] => do
            writeWith self key k
            writeWith self value v
          | _ => throw (.fault .unreachable))
        entries
    | _ => throw (.fault .unreachable)
  | .array _ item => fun
    | .list vs => vs.forM (writeWith self item)
    | _ => throw (.fault .unreachable)
  | .tuple items => fun
    | .list vs => writeAll self items vs
    | _ => throw (.fault .unreachable)
  | .pointer pointee => writeWith self pointee
  | .weak _ pointee => fun
    | .dangling => throw (.refused .danglingPointer)
    | v => writeWith self pointee v
  | .encoded _ => fun
    | .blob bytes => lift (Writer.putSpan bytes)
    | _ => throw (.fault .unreachable)
  | .record _ selection fields => fun
    | .list vs => selection.order.forM fun i => writeAt self fields vs i
    | _ => throw (.fault .unreachable)
  | .sum _ alternatives => fun
    | .tagged i v => do
      putTag i
      writeNth self alternatives i v
    | _ => throw (.fault .unreachable)
  | .enumeration e => fun
    | .tagged i _ => do
      let alternative ← check (Buffer.get e.alternatives i)
      putFixed e.repr alternative.2
    | _ => throw (.fault .unreachable)
  | .range r => fun
    | .int n => putFixed r.repr n
    | _ => throw (.fault .unreachable)
  | .ref name => self name

/-- Writes one value after the other, each with the schema at its place. -/
def writeAll (self : ι → Value → Writing Unit) : List (Schema ι ω) → List Value → Writing Unit
  | [], [] => return ()
  | s :: ss, v :: vs => do
    writeWith self s v
    writeAll self ss vs
  | _, _ => throw (.fault .outOfRange)

/-- Writes the value at an index with the schema at that index. -/
def writeAt (self : ι → Value → Writing Unit) :
    List (Schema ι ω) → List Value → Nat → Writing Unit
  | s :: _, v :: _, 0 => writeWith self s v
  | _ :: ss, _ :: vs, i + 1 => writeAt self ss vs i
  | _, _, _ => throw (.fault .outOfRange)

/-- Writes a value with the schema at an index. -/
def writeNth (self : ι → Value → Writing Unit) : List (Schema ι ω) → Nat → Value → Writing Unit
  | [], _, _ => throw (.fault .outOfRange)
  | s :: _, 0, v => writeWith self s v
  | _ :: ss, i + 1, v => writeNth self ss i v

end

section

variable (defs : Definitions ι ω)

/-- Writes a value of a recursive type that is nested no deeper than `depth`. -/
def writeRef : Nat → ι → Value → Writing Unit
  | 0, _, _ => throw (.fault .unreachable)
  | depth + 1, name, v => writeWith (writeRef depth) (defs.body name) v

/-- Writes a value into the sink. -/
def write (s : Schema ι ω) (v : Value) : Writing Unit :=
  writeWith (writeRef defs v.depth) s v

end

variable {defs : Definitions ι ω} {self' : ι → Value → Writing Unit} {self : ι → Value → Writer Unit}

theorem writeAll_eq {items : List (Schema ι ω)} {vs : List Value} (hlength : vs.length = items.length)
    (hitems : ∀ item v, (item, v) ∈ items.zip vs →
      writeWith self' item v = lift (item.writeWith self v)) :
    writeAll self' items vs = lift (Schema.writeAll self items vs) := by
  induction items generalizing vs with
  | nil =>
    obtain rfl := List.length_eq_zero_iff.1 hlength
    rfl
  | cons item items ih =>
    obtain ⟨v, vs, rfl⟩ := List.exists_cons_of_length_eq_add_one hlength
    rw [List.zip_cons_cons] at hitems
    rw [writeAll, Schema.writeAll, hitems item v (by simp),
      ih (Nat.succ.inj hlength) fun other w hw => hitems other w (by simp [hw]), lift_bind]

theorem writeAt_of_getElem? {fields : List (Schema ι ω)} {vs : List Value} {i : Nat}
    {field : Schema ι ω} {v : Value} (hfield : fields[i]? = some field) (hv : vs[i]? = some v) :
    writeAt self' fields vs i = writeWith self' field v := by
  induction fields generalizing vs i with
  | nil => cases hfield
  | cons other fields ih =>
    cases vs with
    | nil => cases hv
    | cons first vs =>
      cases i with
      | zero => cases hfield; cases hv; rfl
      | succ i => exact ih hfield hv

theorem writeNth_of_getElem? {alternatives : List (Schema ι ω)} {i : Nat} {alternative : Schema ι ω}
    {v : Value} (hget : alternatives[i]? = some alternative) :
    writeNth self' alternatives i v = writeWith self' alternative v := by
  induction alternatives generalizing i with
  | nil => cases hget
  | cons other alternatives ih =>
    cases i with
    | zero => cases hget; rfl
    | succ i => exact ih hget

theorem writeAt_eq {labels : Labels} {selection : Selection} {fields : List (Schema ι ω)}
    {vs : List Value} {i : Nat} (hadmissible : (Schema.record labels selection fields).Admissible)
    (hlength : vs.length = fields.length)
    (hparts : ∀ t w, (t, w) ∈ defs.components (.record labels selection fields) (.list vs) →
      writeWith self' t w = lift (t.writeWith self w)) (hi : i ∈ selection.order) :
    writeAt self' fields vs i = lift (Schema.writeAt self fields vs i) := by
  have hlt := hadmissible.2 i hi
  have hfield : fields[i]? = some fields[i] := List.getElem?_eq_getElem hlt
  have hvs : i < vs.length := hlength ▸ hlt
  have hv : vs[i]? = some vs[i] := List.getElem?_eq_getElem hvs
  rw [writeAt_of_getElem? hfield hv, Schema.writeAt_eq, hfield, hv]
  exact hparts _ _ (List.mem_filterMap.2 ⟨i, hi, by rw [hfield, hv]⟩)

/-- An option of truth values is packed, and it has no other content. -/
theorem putPacked_eq {content : Schema ι ω} {v : Value} (hbool : content.isBool = true)
    (hvalue : defs.Writable (.option content) v) : putPacked v = lift (Writer.putPacked v) := by
  obtain ⟨hadmits, _, hcontent⟩ := hvalue
  cases v with
  | absent => rfl
  | present w =>
    obtain ⟨htruth, _, _⟩ := hcontent content w (List.mem_singleton.2 rfl)
    cases content with
    | bool =>
      cases w with
      | bool b => cases b <;> rfl
      | _ => exact htruth.elim
    | _ => cases hbool
  | _ => exact hadmits.elim

theorem contains_discriminant {e : Enumeration} {i : Nat} {alternative : String × Int}
    (hadmissible : (Schema.enumeration e : Schema ι ω).Admissible)
    (hget : e.alternatives[i]? = some alternative) :
    e.coding.toRepr i = alternative.2 ∧ e.repr.contains alternative.2 = true := by
  have hcontains := hadmissible.2 alternative (List.mem_of_getElem? hget)
  have hdiscriminant : e.discriminant? i = some alternative.2 := by
    rw [Enumeration.discriminant?, hget]
    rfl
  rw [Enumeration.toRepr_of_discriminant? hdiscriminant, e.repr.wrap_of_contains hcontains]
  exact ⟨rfl, hcontains⟩

theorem contains_of_range {r : IntegerRange} {n : Int}
    (hadmissible : (Schema.range r : Schema ι ω).Admissible) (hlow : r.low ≤ n) (hhigh : n ≤ r.high) :
    r.repr.contains n = true := by
  obtain ⟨hlower, hupper⟩ := hadmissible
  simp only [FixedInt.contains, Bool.and_eq_true, decide_eq_true_eq] at hlower hupper ⊢
  exact ⟨Int.le_trans hlower.1 hlow, Int.le_trans hhigh hupper.2⟩

/-- A value is written by checked operations as it is written when its parts are. -/
theorem writeWith_of_components {s : Schema ι ω} {v : Value} (hadmissible : s.Admissible)
    (hvalue : defs.Writable s v) (href : ∀ name, s ≠ .ref name)
    (hparts : ∀ t w, (t, w) ∈ defs.components s v →
      writeWith self' t w = lift (t.writeWith self w)) :
    writeWith self' s v = lift (s.writeWith self v) := by
  have hpacked := fun content (hs : s = .option content) (hbool : content.isBool = true) =>
    putPacked_eq hbool (hs ▸ hvalue)
  obtain ⟨hadmits, hcount, _⟩ := hvalue
  cases s with
  | unit => rfl
  | bool =>
    cases v with
    | bool b => rfl
    | _ => exact hadmits.elim
  | int t =>
    cases v with
    | int n => exact putFixed_eq hadmits
    | _ => exact hadmits.elim
  | wide width =>
    cases v with
    | int n =>
      obtain ⟨hnonneg, hlt⟩ := hadmits
      have hcast : ((256 ^ width : Nat) : Int) = 256 ^ width := Int.natCast_pow 256 width
      exact putWide_eq (by omega)
    | _ => exact hadmits.elim
  | compact t =>
    cases v with
    | int n => exact putCompact_eq hadmits
    | _ => exact hadmits.elim
  | text =>
    cases v with
    | text s => exact putCountedSpan_eq hcount
    | _ => exact hadmits.elim
  | blob =>
    cases v with
    | blob bytes => exact putCountedSpan_eq hcount
    | _ => exact hadmits.elim
  | bits =>
    cases v with
    | bits b => exact putBits_eq hcount
    | _ => exact hadmits.elim
  | option content =>
    rw [writeWith, Schema.writeWith]
    split
    · next hbool => exact hpacked content rfl hbool
    · cases v with
      | absent => rfl
      | present w => exact lift_seq (hparts content w (List.mem_singleton.2 rfl))
      | _ => exact hadmits.elim
  | result success failure =>
    cases v with
    | tagged i w =>
      match i with
      | 0 => exact putTag_seq (by decide) (hparts success w (List.mem_singleton.2 rfl))
      | 1 => exact putTag_seq (by decide) (hparts failure w (List.mem_singleton.2 rfl))
      | i + 2 => exact absurd hadmits (by simp [Schema.Admits])
    | _ => exact hadmits.elim
  | sequence kind item =>
    cases v with
    | list vs => exact putCounted_eq hcount fun w hw => hparts item w (List.mem_map.2 ⟨w, hw, rfl⟩)
    | _ => exact hadmits.elim
  | set keys item =>
    cases v with
    | list vs => exact putCounted_eq hcount fun w hw => hparts item w (List.mem_map.2 ⟨w, hw, rfl⟩)
    | _ => exact hadmits.elim
  | map keys key value =>
    cases v with
    | list vs =>
      obtain ⟨entries, rfl, _⟩ := hadmits
      refine putCounted_eq hcount fun entry hentry => ?_
      obtain ⟨⟨k, w⟩, _, rfl⟩ := List.mem_map.1 hentry
      have hkey := hparts key k (List.mem_flatMap.2 ⟨_, hentry, by simp⟩)
      have hw := hparts value w (List.mem_flatMap.2 ⟨_, hentry, by simp⟩)
      dsimp only
      rw [hkey, lift_seq hw]
    | _ => exact hadmits.elim
  | array count item =>
    cases v with
    | list vs => exact forM_lift fun w hw => hparts item w (List.mem_map.2 ⟨w, hw, rfl⟩)
    | _ => exact hadmits.elim
  | tuple items =>
    cases v with
    | list vs => exact writeAll_eq hadmits hparts
    | _ => exact hadmits.elim
  | pointer pointee => exact hparts pointee v (List.mem_singleton.2 rfl)
  | weak writeOnly pointee =>
    cases v with
    | dangling => rfl
    | _ => exact hparts pointee _ (List.mem_singleton.2 rfl)
  | encoded writeOnly =>
    cases v with
    | blob bytes => rfl
    | _ => exact hadmits.elim
  | record labels selection fields =>
    cases v with
    | list vs => exact forM_lift fun i hi => writeAt_eq hadmissible hadmits hparts hi
    | _ => exact hadmits.elim
  | sum names alternatives =>
    cases v with
    | tagged i w =>
      have hlt : i < alternatives.length := hadmits
      have hget : alternatives[i]? = some alternatives[i] := List.getElem?_eq_getElem hlt
      have hwrite := hparts alternatives[i] w (by simp [Definitions.components, hget])
      rw [writeWith, Schema.writeWith]
      dsimp only
      rw [if_pos hlt, Schema.writeNth_eq, hget, writeNth_of_getElem? hget]
      exact putTag_seq (Nat.lt_of_lt_of_le hlt hadmissible) hwrite
    | _ => exact hadmits.elim
  | enumeration e =>
    cases v with
    | tagged i w =>
      have hlt : i < e.alternatives.length := hadmits.1
      have hget : e.alternatives[i]? = some e.alternatives[i] := List.getElem?_eq_getElem hlt
      obtain ⟨hdiscriminant, hcontains⟩ := contains_discriminant hadmissible hget
      rw [writeWith, Schema.writeWith]
      dsimp only
      rw [Buffer.get_of_getElem? hget, check_ok, pure_bind, putFixed_eq hcontains, ← hdiscriminant]
      rfl
    | _ => exact hadmits.elim
  | range r =>
    cases v with
    | int n => exact putFixed_eq (contains_of_range hadmissible hadmits.1 hadmits.2)
    | _ => exact hadmits.elim
  | ref name => exact absurd rfl (href name)

/-- A value is written by checked operations as it is written, to any sufficient depth. -/
theorem writeWith_writeRef_eq {s : Schema ι ω} {v : Value} (hwell : defs.WellFormed s)
    (hvalue : defs.Writable s v) {depth : Nat} (hdepth : Traversal.sufficient s v ≤ depth) :
    writeWith (writeRef defs depth) s v = lift (s.writeWith (defs.writeRef depth) v) := by
  induction hvalue generalizing depth with
  | @intro s v hadmits hcount hcomponents ih =>
    by_cases href : ∃ name, s = .ref name
    -- Only a name uses up a call. What it stands for is guarded, so that one call less suffices.
    · obtain ⟨name, rfl⟩ := href
      have hpos := v.depth_pos
      have hbody : Traversal.sufficient (defs.body name) v = v.depth - 1 := by
        rw [Traversal.sufficient, if_pos (defs.guarded_body name)]
      change v.depth ≤ depth at hdepth
      obtain ⟨shallow, rfl⟩ : ∃ shallow, depth = shallow + 1 := ⟨depth - 1, by omega⟩
      exact ih (defs.body name) v (List.mem_singleton.2 rfl) (Definitions.forall_occurs_body hwell)
        (by omega)
    · refine writeWith_of_components (hwell s (.refl s)) ⟨hadmits, hcount, hcomponents⟩
        (fun name hs => href ⟨name, hs⟩) fun t w hmem => ?_
      have hpart := Definitions.partOf_of_mem_components hmem
      exact ih t w hmem (hpart.forall_occurs hwell)
        (Nat.le_trans (Traversal.sufficient_part_le hpart) hdepth)

/-- Writing by checked operations is writing. -/
theorem write_eq {s : Schema ι ω} {v : Value} (hwell : defs.WellFormed s) (hvalue : defs.Writable s v) :
    write defs s v = lift (defs.write s v) :=
  writeWith_writeRef_eq hwell hvalue (Traversal.sufficient_le_depth s v)

end Scale.Checked
