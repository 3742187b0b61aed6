import Scale.Proofs.RoundTrip.Values

namespace Scale

variable {ι ω : Type}

namespace Schema

/-- The first schema is the second one with pointers around some of the schemas in it, though not
    around a truth value that is all an option holds. Of the names of recursive types, `names` tells
    which stand for each other. -/
inductive Wraps (names : ι → ι → Prop) : Schema ι ω → Schema ι ω → Prop where
  | refl (s : Schema ι ω) : Wraps names s s
  | around {s' s} : Wraps names s' s → Wraps names (pointer s') s
  | option {s' s} : s'.isBool = s.isBool → Wraps names s' s → Wraps names (option s') (option s)
  | result {s' s t' t} : Wraps names s' s → Wraps names t' t →
    Wraps names (result s' t') (result s t)
  | sequence {kind s' s} : Wraps names s' s → Wraps names (sequence kind s') (sequence kind s)
  | set {keys s' s} : Wraps names s' s → Wraps names (set keys s') (set keys s)
  | map {keys s' s t' t} : Wraps names s' s → Wraps names t' t →
    Wraps names (map keys s' t') (map keys s t)
  | array {count s' s} : Wraps names s' s → Wraps names (array count s') (array count s)
  | tuple {items' items} : items'.length = items.length →
    (∀ (i : Nat) s' s, items'[i]? = some s' → items[i]? = some s → Wraps names s' s) →
    Wraps names (tuple items') (tuple items)
  | pointer {s' s} : Wraps names s' s → Wraps names (pointer s') (pointer s)
  | weak {writeOnly s' s} : Wraps names s' s → Wraps names (weak writeOnly s') (weak writeOnly s)
  | record {labels selection fields' fields} : fields'.length = fields.length →
    (∀ (i : Nat) s' s, fields'[i]? = some s' → fields[i]? = some s → Wraps names s' s) →
    Wraps names (record labels selection fields') (record labels selection fields)
  | sum {names' alternatives' alternatives} : alternatives'.length = alternatives.length →
    (∀ (i : Nat) s' s, alternatives'[i]? = some s' → alternatives[i]? = some s → Wraps names s' s) →
    Wraps names (sum names' alternatives') (sum names' alternatives)
  | ref {name' name} : names name' name → Wraps names (ref name') (ref name)

end Schema

namespace Definitions

open Writer

/-- Recursive types that stand for each other have definitions that do so. -/
def Corresponds (defs : Definitions ι ω) (names : ι → ι → Prop) : Prop :=
  ∀ name' name, names name' name → Schema.Wraps names (defs.body name') (defs.body name)

variable (defs : Definitions ι ω) {names : ι → ι → Prop} {s' s : Schema ι ω}

/-- Pointers are not written. -/
theorem write_wraps (hnames : defs.Corresponds names) (hwraps : Schema.Wraps names s' s) (v : Value) :
    defs.write s' v = defs.write s v := by
  induction s', v using defs.valueInduction generalizing s with
  | step s' v ih =>
    cases hwraps with
    | refl => rfl
    | around hwraps =>
      rw [write_pointer]
      exact ih _ v .pointee hwraps
    | @option t' t hbool hwraps =>
      by_cases hpacked : t.isBool = true
      · rw [write_packed defs hpacked, write_packed defs (hbool.trans hpacked)]
      · have hplain := eq_false_of_ne_true hpacked
        cases v with
        | absent => rw [write_absent defs hplain, write_absent defs (hbool.trans hplain)]
        | present w =>
          rw [write_present defs hplain, write_present defs (hbool.trans hplain),
            ih _ w .content hwraps]
        | _ =>
          rw [← writeWith_write, ← writeWith_write, Schema.writeWith, Schema.writeWith, hbool, hplain]
    | result hsuccess hfailure =>
      cases v with
      | tagged i w =>
        match i with
        | 0 => rw [write_success, write_success, ih _ w .success hsuccess]
        | 1 => rw [write_failure, write_failure, ih _ w .failure hfailure]
        | _ + 2 => rw [← writeWith_write, ← writeWith_write]; rfl
      | _ => rw [← writeWith_write, ← writeWith_write]; rfl
    | sequence hwraps =>
      cases v with
      | list vs =>
        rw [write_sequence, write_sequence, putCounted, putCounted,
          Step.forM_congr fun w hw => ih _ w (.item hw) hwraps]
      | _ => rw [← writeWith_write, ← writeWith_write]; rfl
    | set hwraps =>
      cases v with
      | list vs =>
        rw [write_set, write_set, putCounted, putCounted,
          Step.forM_congr fun w hw => ih _ w (.member hw) hwraps]
      | _ => rw [← writeWith_write, ← writeWith_write]; rfl
    | @map keys key' key value' value hkey hvalue =>
      cases v with
      | list entries =>
        rw [← writeWith_write, ← writeWith_write, Schema.writeWith, Schema.writeWith]
        simp only [writeWith_write]
        refine congrArg (putCount entries.length >>= ·) (funext fun _ => ?_)
        refine Step.forM_congr fun entry hentry => ?_
        split
        · rw [ih _ _ (.key hentry) hkey, ih _ _ (.value hentry) hvalue]
        · rfl
      | _ => rw [← writeWith_write, ← writeWith_write]; rfl
    | array hwraps =>
      cases v with
      | list vs =>
        rw [write_array, write_array, Step.forM_congr fun w hw => ih _ w (.element hw) hwraps]
      | _ => rw [← writeWith_write, ← writeWith_write]; rfl
    | tuple hlength hitems =>
      cases v with
      | list vs =>
        refine write_tuple_congr defs hlength rfl fun i item' item w w' hitem' hitem hw hw' => ?_
        obtain rfl := Option.some.inj (hw.symm.trans hw')
        exact ih item' w (.component hitem' hw) (hitems i item' item hitem' hitem)
      | _ => rw [← writeWith_write, ← writeWith_write]; rfl
    | pointer hwraps =>
      rw [write_pointer, write_pointer]
      exact ih _ v .pointee hwraps
    | weak hwraps =>
      cases v with
      | dangling => rw [← writeWith_write, ← writeWith_write]; rfl
      | _ =>
        rw [← writeWith_write, ← writeWith_write, Schema.writeWith, Schema.writeWith]
        simp only [writeWith_write]
        exact ih _ _ .target hwraps
    | record hlength hfields =>
      cases v with
      | list vs =>
        refine write_record_congr defs hlength rfl ?_
        intro i hi field' field w w' hfield' hfield hw hw'
        obtain rfl := Option.some.inj (hw.symm.trans hw')
        exact ih field' w (.field hi hfield' hw) (hfields i field' field hfield' hfield)
      | _ => rw [← writeWith_write, ← writeWith_write]; rfl
    | @sum names' alternatives' alternatives hlength halternatives =>
      cases v with
      | tagged i w =>
        by_cases hlt : i < alternatives.length
        · have hget := List.getElem?_eq_getElem hlt
          have hget' := List.getElem?_eq_getElem (hlength.symm ▸ hlt : i < alternatives'.length)
          rw [write_sum defs names' hget, write_sum defs names' hget',
            ih _ w (.alternative hget') (halternatives i _ _ hget' hget)]
        · rw [← writeWith_write, ← writeWith_write, Schema.writeWith, Schema.writeWith]
          dsimp only
          rw [if_neg hlt, if_neg (hlength ▸ hlt)]
      | _ => rw [← writeWith_write, ← writeWith_write]; rfl
    | ref hname =>
      rw [write_ref, write_ref]
      exact ih _ v .body (hnames _ _ hname)

theorem encodeFull_wraps (hnames : defs.Corresponds names) (hwraps : Schema.Wraps names s' s)
    (scheme : Scheme) (v : Value) : defs.encodeFull scheme s' v = defs.encodeFull scheme s v := by
  rw [encodeFull, encodeFull, write_wraps defs hnames hwraps]

/-- A type with pointers around some of its parts is written like the type without them, and what is
    written for it is read as a value of the type without them. -/
theorem pointers_transparent :
    (∀ {ι ω : Type} (defs : Definitions ι ω) names, defs.Corresponds names →
      ∀ s' s, Schema.Wraps names s' s →
        ∀ scheme v, defs.encodeFull scheme s' v = defs.encodeFull scheme s v) ∧
    ∀ {ι : Type} (defs : Definitions ι Empty) names, defs.Corresponds names →
      ∀ s' s, Schema.Wraps names s' s → defs.WellFormed s → defs.KeysCoded s →
        ∀ v source, defs.HasType s v →
          (∀ t w, defs.Within s v t w → defs.Fits source.scheme t w) →
          ∀ bytes rest, defs.encodeFull source.scheme s' v = .ok bytes →
            source.bytes = bytes.toList ++ rest →
            defs.read s source = .ok (defs.forget s v) (source.withBytes rest) := by
  refine ⟨fun defs names hnames s' s hwraps => encodeFull_wraps defs hnames hwraps, ?_⟩
  intro ι defs names hnames s' s hwraps hwell hkeys v source htype hfits bytes rest hencode hbytes
  rw [encodeFull_wraps defs hnames hwraps] at hencode
  exact (roundTrips hwell htype hfits hkeys).yields (defs.encodeFull_eq_ok_iff.1 hencode) source rest
    rfl hbytes

open Catalogue in
/-- Pointers around an option and around what it holds. -/
theorem pointers_transparent_option :
    none.encodeFull .classic (.option u8 : Schema Empty Empty) (.present (.int 7)) = .ok #[1, 7] ∧
      none.read (.option u8) (.decoder .classic (.slice [1, 7, 99])) =
        .ok (.present (.int 7)) (.decoder .classic (.slice [99])) := by
  have hwraps : Schema.Wraps (fun name' name => name' = name)
      (.pointer (.option (.pointer u8)) : Schema Empty Empty) (.option u8) :=
    .around (.option rfl (.around (.refl _)))
  have hoccurs : ∀ {P : Schema Empty Empty → Prop}, P (.option u8) → P u8 →
      ∀ t, none.Occurs (.option u8) t → P t := fun hoption hbyte =>
    forall_occurs_of_parts nofun hoption
      (List.forall_mem_singleton.2 (forall_occurs_of_parts nofun hbyte nofun))
  have hwithin : ∀ {P : Schema Empty Empty → Value → Prop}, P (.option u8) (.present (.int 7)) →
      P u8 (.int 7) → ∀ t w, none.Within (.option u8) (.present (.int 7)) t w → P t w := by
    intro P hoption hbyte
    refine forall_within_of_parts hoption ?_
    rintro _ _ ⟨⟩
    exact forall_within_of_parts hbyte nofun
  have hencode : none.encodeFull .classic (.pointer (.option (.pointer u8)) : Schema Empty Empty)
      (.present (.int 7)) = .ok #[1, 7] := rfl
  obtain ⟨hwritten, hread⟩ := pointers_transparent
  refine ⟨?_, ?_⟩
  · rw [← hwritten none _ nofun _ _ hwraps, hencode]
  · exact hread none _ nofun _ _ hwraps (hoccurs trivial trivial) (hoccurs nofun nofun) _ _
      (hwithin trivial rfl) (hwithin trivial trivial) _ _ hencode rfl

/-- An option around a pointer to a truth value has a presence byte, which a packed option takes for
    the truth value. -/
theorem not_pointers_transparent_packed :
    (none : Definitions Empty Empty).encodeFull .classic (.option (.pointer .bool))
        (.present (.bool false)) = .ok #[1, 0] ∧
      (none : Definitions Empty Empty).encodeFull .classic (.option .bool)
        (.present (.bool false)) = .ok #[2] ∧
      (none : Definitions Empty Empty).read (.option .bool) (.decoder .classic (.slice [1, 0])) =
        .ok (.present (.bool true)) (.decoder .classic (.slice [0])) :=
  ⟨rfl, rfl, rfl⟩

end Definitions

end Scale
