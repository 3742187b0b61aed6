import Scale.Proofs.Schema.Typing
import Scale.Proofs.Writing.Equations
import Scale.Proofs.Writing.Verdicts

namespace Scale

variable {ι ω : Type}

/-- What there is in a value that may fail to be written. -/
inductive Leaf where
  /-- An integer that is written compactly. -/
  | number (n : Int)
  /-- A weak pointer whose value is gone. -/
  | dangling
  deriving DecidableEq, Repr

namespace Leaf

/-- Compact integers below this one can be written in a scheme. -/
def bound : Scheme → Nat
  | .classic => 2 ^ 536
  | .jam => 2 ^ 64

/-- The error that writing a leaf ends with, if it fails. -/
def fault (scheme : Scheme) : Leaf → Option EncodeError
  | number n =>
    if n < 0 then some .negativeInteger
    else if (bound scheme : Int) ≤ n then some .valueTooBig else none
  | dangling => some .danglingPointer

/-- What may fail in a value of a schema, its parts aside. -/
def ofValue : Schema ι ω → Value → List Leaf
  | .compact _, .int n => [number n]
  | .weak _ _, .dangling => [dangling]
  | _, _ => []

theorem verdict_number (scheme : Scheme) (n : Int) :
    Writer.verdict scheme (Writer.putCompact n) = (number n).fault scheme := by
  have hbound : scheme.capacity = bound scheme := by cases scheme <;> rfl
  rw [Writer.verdict_putCompact, hbound]
  rfl

end Leaf

/-- The count that is written for a value is a 64-bit word, like every length in memory. -/
def Schema.CountFits : Schema ι ω → Value → Prop
  | text, .text s => s.utf8ByteSize ≤ maxCount
  | blob, .blob bytes => bytes.length ≤ maxCount
  | bits, .bits b => b.length ≤ maxCount
  | sequence _ _, .list vs => vs.length ≤ maxCount
  | set _ _, .list vs => vs.length ≤ maxCount
  | map _ _ _, .list entries => entries.length ≤ maxCount
  | _, _ => True

namespace Definitions

open Writer

variable (defs : Definitions ι ω)

/-- The parts of a value in the order in which they are written: coded fields in coding order, items
    as they lie, a key before its value, and only the alternative that is there. -/
def components : Schema ι ω → Value → List (Schema ι ω × Value)
  | .option content, .present w => [(content, w)]
  | .result success _, .tagged 0 w => [(success, w)]
  | .result _ failure, .tagged 1 w => [(failure, w)]
  | .sequence _ item, .list ws => ws.map (item, ·)
  | .set _ item, .list ws => ws.map (item, ·)
  | .map _ key value, .list entries => entries.flatMap fun
    | .list [k, w] => [(key, k), (value, w)]
    | _ => []
  | .array _ item, .list ws => ws.map (item, ·)
  | .tuple items, .list ws => items.zip ws
  | .pointer pointee, w => [(pointee, w)]
  | .weak _ _, .dangling => []
  | .weak _ pointee, w => [(pointee, w)]
  | .record _ selection fields, .list ws => selection.order.filterMap fun i =>
    match fields[i]?, ws[i]? with
    | some field, some w => some (field, w)
    | _, _ => Option.none
  | .sum _ alternatives, .tagged i w => (alternatives[i]?.map (·, w)).toList
  | .ref name, w => [(defs.body name, w)]
  | _, _ => []

variable {defs} {s t : Schema ι ω} {v w : Value}

theorem partOf_of_mem_components (hmem : (t, w) ∈ defs.components s v) : defs.PartOf s v t w := by
  cases s with
  | option content =>
    cases v with
    | present x =>
      obtain ⟨rfl, rfl⟩ := Prod.mk.inj (List.mem_singleton.1 hmem)
      exact .content
    | _ => cases hmem
  | result success failure =>
    cases v with
    | tagged i x =>
      match i with
      | 0 =>
        obtain ⟨rfl, rfl⟩ := Prod.mk.inj (List.mem_singleton.1 hmem)
        exact .success
      | 1 =>
        obtain ⟨rfl, rfl⟩ := Prod.mk.inj (List.mem_singleton.1 hmem)
        exact .failure
      | _ + 2 => cases hmem
    | _ => cases hmem
  | sequence kind item =>
    cases v with
    | list ws =>
      obtain ⟨x, hx, heq⟩ := List.mem_map.1 hmem
      obtain ⟨rfl, rfl⟩ := Prod.mk.inj heq
      exact .item hx
    | _ => cases hmem
  | set keys item =>
    cases v with
    | list ws =>
      obtain ⟨x, hx, heq⟩ := List.mem_map.1 hmem
      obtain ⟨rfl, rfl⟩ := Prod.mk.inj heq
      exact .member hx
    | _ => cases hmem
  | map keys key value =>
    cases v with
    | list entries =>
      obtain ⟨entry, hentry, hmem⟩ := List.mem_flatMap.1 hmem
      split at hmem
      · rcases List.mem_cons.1 hmem with heq | hmem
        · obtain ⟨rfl, rfl⟩ := Prod.mk.inj heq
          exact .key hentry
        · obtain ⟨rfl, rfl⟩ := Prod.mk.inj (List.mem_singleton.1 hmem)
          exact .value hentry
      · cases hmem
    | _ => cases hmem
  | array count item =>
    cases v with
    | list ws =>
      obtain ⟨x, hx, heq⟩ := List.mem_map.1 hmem
      obtain ⟨rfl, rfl⟩ := Prod.mk.inj heq
      exact .element hx
    | _ => cases hmem
  | tuple items =>
    cases v with
    | list ws =>
      obtain ⟨i, hget⟩ := List.mem_iff_getElem?.1 hmem
      obtain ⟨hitem, hvalue⟩ := List.getElem?_zip_eq_some.1 hget
      exact .component hitem hvalue
    | _ => cases hmem
  | pointer pointee =>
    obtain ⟨rfl, rfl⟩ := Prod.mk.inj (List.mem_singleton.1 hmem)
    exact .pointee
  | weak writeOnly pointee =>
    cases v with
    | dangling => cases hmem
    | _ =>
      obtain ⟨rfl, rfl⟩ := Prod.mk.inj (List.mem_singleton.1 hmem)
      exact .target
  | record labels selection fields =>
    cases v with
    | list ws =>
      obtain ⟨i, hi, hget⟩ := List.mem_filterMap.1 hmem
      split at hget
      · rename_i field x hfield hx
        obtain ⟨rfl, rfl⟩ := Prod.mk.inj (Option.some.inj hget)
        exact .field hi hfield hx
      · cases hget
    | _ => cases hmem
  | sum names alternatives =>
    cases v with
    | tagged i x =>
      obtain ⟨alternative, halternative, heq⟩ := Option.map_eq_some_iff.1 (Option.mem_toList.1 hmem)
      obtain ⟨rfl, rfl⟩ := Prod.mk.inj heq
      exact .alternative halternative
    | _ => cases hmem
  | ref name =>
    obtain ⟨rfl, rfl⟩ := Prod.mk.inj (List.mem_singleton.1 hmem)
    exact .body
  | _ => cases v <;> cases hmem

variable (defs)

/-- What may fail in a value, in the order in which it is written. -/
def leaves (s : Schema ι ω) (v : Value) : List Leaf :=
  Leaf.ofValue s v ++ (defs.components s v).attach.flatMap fun part => leaves part.1.1 part.1.2
termination_by rank s v
decreasing_by exact (partOf_of_mem_components part.2).rank_lt

theorem leaves_eq (s : Schema ι ω) (v : Value) : defs.leaves s v =
    Leaf.ofValue s v ++ (defs.components s v).flatMap fun part => defs.leaves part.1 part.2 := by
  have hattach := List.flatMap_map (f := Subtype.val) (g := fun part => defs.leaves part.1 part.2)
    (l := (defs.components s v).attach)
  rw [List.attach_map_subtype_val] at hattach
  rw [leaves, hattach]

/-- A value of the type as far as it is written, with all counts that are written words. Nothing is
    asked of fields that are not coded, nor of what a dangling pointer pointed to. -/
inductive Writable : Schema ι ω → Value → Prop where
  | intro {s : Schema ι ω} {v : Value} (admits : s.Admits v) (countFits : s.CountFits v)
    (components : ∀ t w, (t, w) ∈ defs.components s v → Writable t w) : Writable s v

variable {defs} {scheme : Scheme}

/-- What ends the writing of a part of a value. -/
abbrev partVerdict (defs : Definitions ι ω) (scheme : Scheme) (part : Schema ι ω × Value) :
    Option EncodeError :=
  verdict scheme (defs.write part.1 part.2)

theorem verdict_tuple {items : List (Schema ι ω)} {ws : List Value}
    (hlength : ws.length = items.length) : verdict scheme (defs.write (.tuple items) (.list ws)) =
      (items.zip ws).findSome? (defs.partVerdict scheme) := by
  induction items generalizing ws with
  | nil =>
    obtain rfl := List.length_eq_zero_iff.1 hlength
    rw [write_tuple_nil]
    rfl
  | cons item items ih =>
    obtain ⟨w, ws, rfl⟩ := List.exists_cons_of_length_eq_add_one hlength
    rw [write_tuple_cons, verdict_seq (defs.uniform_write item w) (defs.uniform_write _ _),
      ih (Nat.succ.inj hlength), List.zip_cons_cons, findSome?_cons_eq_or]

theorem verdict_entries {keys : Keying} {key value : Schema ι ω}
    {entries : List (Value × Value)} :
    (entries.findSome? fun entry =>
      verdict scheme (do defs.write key entry.1; defs.write value entry.2)) =
        (defs.components (.map keys key value)
          (.list (entries.map fun entry => .list [entry.1, entry.2]))).findSome?
            (defs.partVerdict scheme) := by
  induction entries with
  | nil => rfl
  | cons entry entries ih =>
    rw [findSome?_cons_eq_or, ih, verdict_seq (defs.uniform_write _ _) (defs.uniform_write _ _)]
    change _ = ((key, entry.1) :: (value, entry.2) :: _).findSome? _
    rw [findSome?_cons_eq_or, findSome?_cons_eq_or, Option.or_assoc]
    rfl

theorem verdict_fields {labels : Labels} {selection : Selection} {fields : List (Schema ι ω)}
    {ws : List Value} (hrange : ∀ i ∈ selection.order, i < fields.length)
    (hlength : ws.length = fields.length) :
    (selection.order.findSome? fun i => verdict scheme (match fields[i]?, ws[i]? with
      | some field, some w => defs.write field w
      | _, _ => throw .illTyped)) =
        (defs.components (.record labels selection fields) (.list ws)).findSome?
          (defs.partVerdict scheme) := by
  obtain ⟨order, default⟩ := selection
  induction order with
  | nil => rfl
  | cons i order ih =>
    have hlt := hrange i (by simp)
    obtain ⟨field, hfield⟩ : ∃ field, fields[i]? = some field := ⟨_, List.getElem?_eq_getElem hlt⟩
    obtain ⟨w, hvalue⟩ : ∃ w, ws[i]? = some w := ⟨_, List.getElem?_eq_getElem (hlength ▸ hlt)⟩
    rw [findSome?_cons_eq_or, ih fun j hj => hrange j (by simp [hj])]
    simp only [components, List.filterMap_cons, hfield, hvalue]
    exact (@findSome?_cons_eq_or _ _ (defs.partVerdict scheme) (field, w) _).symm

/-- Writing a value fails as its own leaf does, if it has one, and else as the first of its parts
    does that fails. -/
theorem verdict_write (hadmissible : s.Admissible) (hadmits : s.Admits v) (hcount : s.CountFits v) :
    verdict scheme (defs.write s v) =
      ((Leaf.ofValue s v).findSome? (Leaf.fault scheme)).or
        ((defs.components s v).findSome? (defs.partVerdict scheme)) := by
  have huniform := defs.uniform_write
  have hcounted : ∀ {item : Schema ι ω} {ws : List Value}, ws.length ≤ maxCount →
      verdict scheme (putCounted (defs.write item) ws) =
        (ws.map (item, ·)).findSome? (defs.partVerdict scheme) := by
    intro item ws hfits
    rw [verdict_putCounted hfits fun w _ => huniform item w, List.findSome?_map]
    rfl
  have hone : ∀ part, [part].findSome? (defs.partVerdict scheme) = defs.partVerdict scheme part :=
    fun part => findSome?_cons_eq_or.trans Option.or_none
  have htag : ∀ byte part, verdict scheme (do putByte byte; defs.write part.1 part.2) =
      [part].findSome? (defs.partVerdict scheme) := by
    intro byte part
    rw [verdict_seq (Uniform.putByte byte) (huniform _ _), hone]
    rfl
  have hspan : ∀ {span : List UInt8} {count : Nat}, count ≤ maxCount →
      verdict scheme (do putCount count; putSpan span) = Option.none := by
    intro span count hfits
    rw [verdict_seq (Uniform.putCount _) (Uniform.putSpan _), verdict_putCount hfits]
    rfl
  cases s with
  | unit =>
    rw [← writeWith_write]
    cases v <;> rfl
  | bool =>
    cases v with
    | bool b => exact verdict_putByte _
    | _ => exact hadmits.elim
  | int t =>
    cases v with
    | int n => exact verdict_putSpan _
    | _ => exact hadmits.elim
  | wide width =>
    cases v with
    | int n => exact verdict_putSpan _
    | _ => exact hadmits.elim
  | compact t =>
    cases v with
    | int n =>
      have hwrite : defs.write (.compact t) (.int n) = putCompact n := rfl
      rw [hwrite, Leaf.verdict_number]
      change _ = ([Leaf.number n].findSome? (Leaf.fault scheme)).or Option.none
      rw [findSome?_cons_eq_or, Option.or_none]
      exact Option.or_none.symm
    | _ => exact hadmits.elim
  | text =>
    cases v with
    | text s => exact hspan hcount
    | _ => exact hadmits.elim
  | blob =>
    cases v with
    | blob bytes => exact hspan hcount
    | _ => exact hadmits.elim
  | bits =>
    cases v with
    | bits b => exact hspan hcount
    | _ => exact hadmits.elim
  | option content =>
    cases v with
    | absent =>
      cases hbool : content.isBool with
      | true => rw [write_packed defs hbool]; rfl
      | false => rw [write_absent defs hbool]; rfl
    | present w =>
      cases hbool : content.isBool with
      | true =>
        -- The content of a packed option is a truth value, or neither it nor the option is typed.
        cases content with
        | bool =>
          rw [write_packed defs hbool]
          refine Eq.trans ?_ (hone (.bool, w)).symm
          cases w with
          | bool b => cases b <;> rfl
          | _ => rfl
        | _ => cases hbool
      | false =>
        rw [write_present defs hbool]
        exact htag 1 (content, w)
    | _ => exact hadmits.elim
  | result success failure =>
    cases v with
    | tagged i w =>
      match i with
      | 0 =>
        rw [write_success]
        exact htag 0 (success, w)
      | 1 =>
        rw [write_failure]
        exact htag 1 (failure, w)
      | i + 2 => exact absurd hadmits (by simp [Schema.Admits])
    | _ => exact hadmits.elim
  | sequence kind item =>
    cases v with
    | list ws =>
      rw [write_sequence]
      exact hcounted hcount
    | _ => exact hadmits.elim
  | set keys item =>
    cases v with
    | list ws =>
      rw [write_set]
      exact hcounted hcount
    | _ => exact hadmits.elim
  | map keys key value =>
    cases v with
    | list ws =>
      obtain ⟨entries, rfl, _⟩ := hadmits
      have hfits : entries.length ≤ maxCount := by simpa [Schema.CountFits] using hcount
      rw [write_map, verdict_putCounted hfits fun entry _ =>
        (huniform key entry.1).bind fun _ => huniform value entry.2]
      exact verdict_entries
    | _ => exact hadmits.elim
  | array count item =>
    cases v with
    | list ws =>
      rw [write_array, verdict_forM fun w _ => huniform item w]
      exact (List.findSome?_map (f := (item, ·)) (p := defs.partVerdict scheme)).symm
    | _ => exact hadmits.elim
  | tuple items =>
    cases v with
    | list ws => exact verdict_tuple hadmits
    | _ => exact hadmits.elim
  | pointer pointee =>
    rw [write_pointer]
    exact (hone (pointee, v)).symm
  | weak writeOnly pointee =>
    cases v with
    | dangling => rfl
    | _ =>
      rw [← writeWith_write, Schema.writeWith, writeWith_write]
      exact (hone (pointee, _)).symm
  | encoded writeOnly =>
    cases v with
    | blob bytes => exact verdict_putSpan _
    | _ => exact hadmits.elim
  | record labels selection fields =>
    cases v with
    | list ws =>
      rw [write_record, verdict_forM fun i _ => ?_]
      · exact verdict_fields hadmissible.2 hadmits
      · split
        · exact huniform _ _
        · exact Uniform.throw _
    | _ => exact hadmits.elim
  | sum names alternatives =>
    cases v with
    | tagged i w =>
      have hget := List.getElem?_eq_getElem (hadmits : i < alternatives.length)
      rw [write_sum defs names hget]
      simp only [components, hget]
      exact htag _ (alternatives[i], w)
    | _ => exact hadmits.elim
  | enumeration e =>
    cases v with
    | tagged i w => exact verdict_putSpan _
    | _ => exact hadmits.elim
  | range r =>
    cases v with
    | int n => exact verdict_putSpan _
    | _ => exact hadmits.elim
  | ref name =>
    rw [write_ref]
    exact (hone (defs.body name, v)).symm

/-- Writing a value fails as the first of its leaves does that fails. -/
theorem verdict_write_eq_findSome? (hwell : defs.WellFormed s) (hvalue : defs.Writable s v) :
    verdict scheme (defs.write s v) = (defs.leaves s v).findSome? (Leaf.fault scheme) := by
  induction hvalue with
  | @intro s v hadmits hcount _ ih =>
    rw [verdict_write (hwell s (.refl s)) hadmits hcount, leaves_eq, List.findSome?_append]
    refine congrArg (Option.or _) (findSome?_flatMap fun part hpart => ?_)
    exact ih part.1 part.2 hpart ((partOf_of_mem_components hpart).forall_occurs hwell)

/-- Encoding fails just when a compact integer or a dangling pointer that is written does, and with
    the error of the first of these. -/
theorem encodeFull_eq_error_iff (scheme : Scheme) {s : Schema ι ω} {v : Value} (e : EncodeError)
    (hwell : defs.WellFormed s) (hvalue : defs.Writable s v) :
    defs.encodeFull scheme s v = .error e ↔
      ∃ before leaf after, defs.leaves s v = before ++ leaf :: after ∧
        leaf.fault scheme = some e ∧ ∀ other ∈ before, other.fault scheme = Option.none := by
  rw [← List.findSome?_eq_some_iff, ← verdict_write_eq_findSome? hwell hvalue, verdict, encodeFull,
    ← blankSink]
  cases defs.write s v (blankSink scheme) with
  | ok _ sink => simp
  | error e' sink => simp

/-- A cached number that is not coded, a number, an owner and a balance. -/
def account : Schema Empty Unit :=
  .record (.names ["cached", "id", "owner", "balance"]) ⟨[1, 2, 3], fun _ => .int 0⟩
    [.compact (.fixed .i64), .compact (.fixed .u64), .weak () (.int .u8), .compact (.fixed .i64)]

/-- Where the owner is gone and the balance is below zero, it is the owner that encoding fails at. -/
theorem encodeFull_eq_error_iff_account : (none : Definitions Empty Unit).encodeFull .jam account
    (.list [.int (-5), .int 3, .dangling, .int (-1)]) = .error .danglingPointer := by
  have hleaf : ∀ {s : Schema Empty Unit}, s.parts = [] → s.Admissible → none.WellFormed s :=
    fun hparts hs => forall_occurs_of_parts (fun name => name.elim) hs (by simp [hparts])
  have hweak : none.WellFormed (.weak () (.int .u8) : Schema Empty Unit) := by
    refine forall_occurs_of_parts (fun name => name.elim) trivial ?_
    exact List.forall_mem_singleton.2 (hleaf rfl trivial)
  have hwell : none.WellFormed account := by
    refine forall_occurs_of_parts (fun name => name.elim) ⟨by decide, by decide⟩ ?_
    change ∀ part ∈ [_, _, _], none.WellFormed part
    simp only [List.forall_mem_cons]
    exact ⟨hleaf rfl trivial, hweak, hleaf rfl trivial, nofun⟩
  have hnumber : ∀ (t : IntegerType) (n : Int), t.contains n = true →
      (none : Definitions Empty Unit).Writable (.compact t) (.int n) :=
    fun t n hn => .intro hn trivial nofun
  have hvalue : none.Writable account (.list [.int (-5), .int 3, .dangling, .int (-1)]) := by
    refine .intro rfl trivial fun t w hmem => ?_
    change (t, w) ∈ [_, _, _] at hmem
    simp only [List.mem_cons, List.not_mem_nil, or_false, Prod.mk.injEq] at hmem
    obtain ⟨rfl, rfl⟩ | ⟨rfl, rfl⟩ | ⟨rfl, rfl⟩ := hmem
    · exact hnumber _ 3 rfl
    · exact .intro trivial trivial nofun
    · exact hnumber _ (-1) rfl
  have hleaves : ∀ {s : Schema Empty Unit} {v : Value}, none.components s v = [] →
      none.leaves s v = Leaf.ofValue s v := by
    intro s v hnone
    rw [leaves_eq, hnone, List.flatMap_nil, List.append_nil]
  have hwalk : none.leaves account (.list [.int (-5), .int 3, .dangling, .int (-1)]) =
      [.number 3, .dangling, .number (-1)] := by
    rw [leaves_eq]
    change [] ++ (none.leaves _ _ ++ (none.leaves _ _ ++ (none.leaves _ _ ++ []))) = _
    rw [hleaves rfl, hleaves rfl, hleaves rfl]
    rfl
  exact (encodeFull_eq_error_iff .jam .danglingPointer hwell hvalue).2
    ⟨[.number 3], .dangling, [.number (-1)], hwalk, rfl, List.forall_mem_singleton.2 rfl⟩

end Definitions

end Scale
