import Scale.Proofs.Writing.Congruence

namespace Scale.Definitions

open Writer

variable {ι ω : Type} (defs : Definitions ι ω)

theorem writeWith_write (s : Schema ι ω) :
    s.writeWith (fun name => defs.write (.ref name)) = defs.write s := by
  funext v
  exact (defs.write_eq s v).symm

theorem write_pointer (pointee : Schema ι ω) (v : Value) :
    defs.write (.pointer pointee) v = defs.write pointee v := by
  rw [← writeWith_write, Schema.writeWith, writeWith_write]

theorem write_packed {content : Schema ι ω} (hbool : content.isBool = true) (v : Value) :
    defs.write (.option content) v = putPacked v := by
  rw [← writeWith_write, Schema.writeWith]
  exact if_pos hbool

theorem write_absent {content : Schema ι ω} (hbool : content.isBool = false) :
    defs.write (.option content) .absent = putByte 0 := by
  rw [← writeWith_write, Schema.writeWith, hbool]
  rfl

theorem write_present {content : Schema ι ω} (hbool : content.isBool = false) (w : Value) :
    defs.write (.option content) (.present w) = (do
      putByte 1
      defs.write content w) := by
  rw [← writeWith_write, Schema.writeWith, hbool, ← writeWith_write]
  rfl

theorem write_success (success failure : Schema ι ω) (w : Value) :
    defs.write (.result success failure) (.tagged 0 w) = (do
      putByte 0
      defs.write success w) := by
  rw [← writeWith_write, Schema.writeWith, ← writeWith_write]
  rfl

theorem write_failure (success failure : Schema ι ω) (w : Value) :
    defs.write (.result success failure) (.tagged 1 w) = (do
      putByte 1
      defs.write failure w) := by
  rw [← writeWith_write, Schema.writeWith, ← writeWith_write]
  rfl

theorem write_sequence (kind : SequenceKind) (item : Schema ι ω) (vs : List Value) :
    defs.write (.sequence kind item) (.list vs) = putCounted (defs.write item) vs := by
  rw [← writeWith_write, Schema.writeWith, writeWith_write]

theorem write_set (keys : Keying) (item : Schema ι ω) (vs : List Value) :
    defs.write (.set keys item) (.list vs) = putCounted (defs.write item) vs := by
  rw [← writeWith_write, Schema.writeWith, writeWith_write]

theorem write_map (keys : Keying) (key value : Schema ι ω) (entries : List (Value × Value)) :
    defs.write (.map keys key value) (.list (entries.map fun entry => .list [entry.1, entry.2])) =
      putCounted (fun entry => do defs.write key entry.1; defs.write value entry.2) entries := by
  rw [← writeWith_write, Schema.writeWith, writeWith_write, writeWith_write]
  simp only [putCounted, List.length_map, List.forM_eq_forM, List.forM_map]

theorem write_array (count : Nat) (item : Schema ι ω) (vs : List Value) :
    defs.write (.array count item) (.list vs) = vs.forM (defs.write item) := by
  rw [← writeWith_write, Schema.writeWith, writeWith_write]

theorem write_tuple_nil : defs.write (.tuple []) (.list []) = pure () := by
  rw [← writeWith_write]
  rfl

theorem write_tuple_cons (item : Schema ι ω) (items : List (Schema ι ω)) (v : Value)
    (vs : List Value) :
    defs.write (.tuple (item :: items)) (.list (v :: vs)) = (do
      defs.write item v
      defs.write (.tuple items) (.list vs)) := by
  have htail : defs.write (.tuple items) (.list vs) =
      Schema.writeAll (fun name => defs.write (.ref name)) items vs := by
    rw [← writeWith_write, Schema.writeWith]
  rw [htail, ← writeWith_write, Schema.writeWith]
  dsimp only
  rw [Schema.writeAll, writeWith_write]

/-- Tuples are written alike when they are alike in what is written at every place. -/
theorem write_tuple_congr {items items' : List (Schema ι ω)} {vs vs' : List Value}
    (hitems : items.length = items'.length) (hvs : vs.length = vs'.length)
    (hwrite : ∀ (i : Nat) item item' v v', items[i]? = some item → items'[i]? = some item' →
      vs[i]? = some v → vs'[i]? = some v' → defs.write item v = defs.write item' v') :
    defs.write (.tuple items) (.list vs) = defs.write (.tuple items') (.list vs') := by
  induction items generalizing items' vs vs' with
  | nil =>
    obtain rfl := List.length_eq_zero_iff.1 hitems.symm
    rw [← writeWith_write]
    cases vs with
    | nil =>
      obtain rfl := List.length_eq_zero_iff.1 hvs.symm
      rfl
    | cons v vs =>
      obtain ⟨v', vs', rfl⟩ := List.exists_cons_of_length_eq_add_one hvs.symm
      rfl
  | cons item items ih =>
    obtain ⟨item', items', rfl⟩ := List.exists_cons_of_length_eq_add_one hitems.symm
    cases vs with
    | nil =>
      obtain rfl := List.length_eq_zero_iff.1 hvs.symm
      rw [← writeWith_write, ← writeWith_write]
      rfl
    | cons v vs =>
      obtain ⟨v', vs', rfl⟩ := List.exists_cons_of_length_eq_add_one hvs.symm
      rw [write_tuple_cons, write_tuple_cons, hwrite 0 item item' v v' rfl rfl rfl rfl,
        ih (Nat.succ.inj hitems) (Nat.succ.inj hvs) fun i => hwrite (i + 1)]

/-- The coded fields of a record are written in their order. -/
theorem write_record (labels : Labels) (selection : Selection) (fields : List (Schema ι ω))
    (vs : List Value) :
    defs.write (.record labels selection fields) (.list vs) = selection.order.forM fun i =>
      match fields[i]?, vs[i]? with
      | some field, some v => defs.write field v
      | _, _ => throw .illTyped := by
  rw [← writeWith_write, Schema.writeWith]
  refine congrArg (selection.order.forM ·) (funext fun i => ?_)
  rw [Schema.writeAt_eq]
  cases fields[i]? with
  | none => rfl
  | some field =>
    cases vs[i]? with
    | none => rfl
    | some v => exact (defs.write_eq field v).symm

/-- Records are written alike when they are alike in what is written for every coded field. -/
theorem write_record_congr {labels labels' : Labels} {selection : Selection}
    {fields fields' : List (Schema ι ω)} {vs vs' : List Value}
    (hfields : fields.length = fields'.length) (hvs : vs.length = vs'.length)
    (hwrite : ∀ i ∈ selection.order, ∀ field field' v v', fields[i]? = some field →
      fields'[i]? = some field' → vs[i]? = some v → vs'[i]? = some v' →
      defs.write field v = defs.write field' v') :
    defs.write (.record labels selection fields) (.list vs) =
      defs.write (.record labels' selection fields') (.list vs') := by
  rw [write_record, write_record]
  refine Step.forM_congr fun i hi => ?_
  by_cases hfield : i < fields.length
  · by_cases hv : i < vs.length
    · simp only [List.getElem?_eq_getElem hfield, List.getElem?_eq_getElem (hfields ▸ hfield),
        List.getElem?_eq_getElem hv, List.getElem?_eq_getElem (hvs ▸ hv)]
      exact hwrite i hi _ _ _ _ (List.getElem?_eq_getElem _) (List.getElem?_eq_getElem _)
        (List.getElem?_eq_getElem _) (List.getElem?_eq_getElem _)
    · simp only [List.getElem?_eq_none (Nat.not_lt.1 hv),
        List.getElem?_eq_none (hvs ▸ Nat.not_lt.1 hv)]
      cases fields[i]? <;> cases fields'[i]? <;> rfl
  · simp only [List.getElem?_eq_none (Nat.not_lt.1 hfield),
      List.getElem?_eq_none (hfields ▸ Nat.not_lt.1 hfield)]

theorem write_sum (names : List String) {alternatives : List (Schema ι ω)} {i : Nat}
    {alternative : Schema ι ω} (hget : alternatives[i]? = some alternative) (w : Value) :
    defs.write (.sum names alternatives) (.tagged i w) = (do
      putByte (UInt8.ofNat i)
      defs.write alternative w) := by
  have hlt : i < alternatives.length := (List.getElem?_eq_some_iff.1 hget).1
  rw [← writeWith_write, Schema.writeWith]
  dsimp only
  rw [if_pos hlt, Schema.writeNth_eq, hget, ← writeWith_write]
  rfl

/-- The bytes of a value are what it emits. -/
theorem encodeFull_eq_ok_iff {scheme : Scheme} {s : Schema ι ω} {v : Value} {bytes : Array UInt8} :
    defs.encodeFull scheme s v = .ok bytes ↔ Emits scheme (defs.write s v) bytes.toList := by
  constructor
  · intro hfull
    cases hrun : defs.write s v (blankSink scheme) with
    | error e sink =>
      rw [encodeFull, ← blankSink, hrun] at hfull
      cases hfull
    | ok _ sink =>
      obtain ⟨out, rfl, hemits⟩ := (defs.uniform_write s v).emits_of_ok hrun
      rw [encodeFull, ← blankSink, hrun] at hfull
      have hout : bytes = (#[] : Array UInt8) ++ out := by
        rw [← Except.ok.inj hfull, Sink.contents?_append]
        rfl
      have hlist : bytes.toList = out := by rw [hout]; simp
      rw [hlist]
      exact hemits
  · intro hemits
    rw [encodeFull, ← blankSink, hemits (blankSink scheme) rfl]
    refine congrArg Except.ok ?_
    rw [Sink.contents?_append]
    exact Array.ext' (by simp [blankSink, Sink.contents?])

end Scale.Definitions
