import Scale.Catalogue
import Scale.Proofs.Append.Runs
import Scale.Proofs.RoundTrip.Values

namespace Scale.Definitions

open Writer

variable {ι ω : Type} (defs : Definitions ι ω) {scheme own : Scheme} {s : Schema ι ω}
  {xs items : List Value}

/-- The value as an item that is encoded already, in the given scheme. -/
def itemIn (own : Scheme) (s : Schema ι ω) (v : Value) : Except EncodeError Value := do
  let bytes ← defs.encodeFull own s v
  return .blob bytes.toList

/-- The bytes of values in a scheme one after the other. -/
def joined (scheme : Scheme) (s : Schema ι ω) : List Value → Except EncodeError (List UInt8)
  | [] => .ok []
  | v :: vs => do
    let bytes ← defs.encodeFull scheme s v
    return bytes.toList ++ (← joined scheme s vs)

/-- The vector of items that are encoded already, in a stream of the scheme. -/
def encodeItems (scheme : Scheme) (items : List Value) : Except EncodeError (Array UInt8) :=
  (none : Definitions Empty Unit).encodeFull scheme (.sequence .vector (.encoded ())) (.list items)

theorem joined_cons {v : Value} {vs : List Value} {payload : List UInt8} :
    defs.joined scheme s (v :: vs) = .ok payload ↔ ∃ bytes rest,
      defs.encodeFull scheme s v = .ok bytes ∧ defs.joined scheme s vs = .ok rest ∧
        payload = bytes.toList ++ rest := by
  rw [joined]
  cases defs.encodeFull scheme s v with
  | error e => exact iff_of_false nofun nofun
  | ok bytes =>
    cases defs.joined scheme s vs with
    | error e => exact iff_of_false nofun nofun
    | ok rest =>
      constructor
      · intro hpayload
        exact ⟨bytes, rest, rfl, rfl, (Except.ok.inj hpayload).symm⟩
      · rintro ⟨_, _, hbytes, hrest, rfl⟩
        obtain rfl := Except.ok.inj hbytes
        obtain rfl := Except.ok.inj hrest
        rfl

/-- The bytes of the values are what is written when they are written one after the other. -/
theorem joined_eq_ok_iff {vs : List Value} {payload : List UInt8} :
    defs.joined scheme s vs = .ok payload ↔ Emits scheme (vs.forM (defs.write s)) payload := by
  induction vs generalizing payload with
  | nil =>
    constructor
    · intro hpayload
      obtain rfl := Except.ok.inj hpayload
      exact Emits.pure
    · intro hemits
      rw [hemits.unique Emits.pure]
      rfl
  | cons v vs ih =>
    rw [joined_cons, List.forM_eq_forM, List.forM_cons, ← List.forM_eq_forM]
    constructor
    · rintro ⟨bytes, rest, hbytes, hrest, rfl⟩
      exact Emits.bind (defs.encodeFull_eq_ok_iff.1 hbytes) (ih.1 hrest)
    · intro hemits
      obtain ⟨first, rest, rfl, hfirst, hrest⟩ :=
        hemits.of_seq (defs.uniform_write s v) (Uniform.forM fun w _ => defs.uniform_write s w)
      exact ⟨first.toArray, rest, defs.encodeFull_eq_ok_iff.2 hfirst, ih.2 hrest, rfl⟩

/-- A vector is the number of the values before their bytes. -/
theorem encodeFull_vector_iff_joined {vs : List Value} {bytes : Array UInt8} :
    defs.encodeFull scheme (.sequence .vector s) (.list vs) = .ok bytes ↔
      vs.length < scheme.capacity ∧ ∃ payload, defs.joined scheme s vs = .ok payload ∧
        bytes.toList = scheme.spelling vs.length ++ payload := by
  simp only [encodeFull_vector_iff, joined_eq_ok_iff]

/-- Items that are encoded already are as many as the values, and in a stream of any scheme they give
    the bytes of the values in their own. -/
theorem joined_items (hitems : xs.mapM (defs.itemIn own s) = .ok items) :
    items.length = xs.length ∧ ∃ payload, defs.joined own s xs = .ok payload ∧
      ∀ scheme, (none : Definitions Empty Unit).joined scheme (.encoded ()) items = .ok payload := by
  induction xs generalizing items with
  | nil =>
    obtain rfl : [] = items := Except.ok.inj hitems
    exact ⟨rfl, [], rfl, fun _ => rfl⟩
  | cons x xs ih =>
    rw [List.mapM_cons, itemIn] at hitems
    cases hx : defs.encodeFull own s x with
    | error e =>
      rw [hx] at hitems
      cases hitems
    | ok bytes =>
      cases hxs : xs.mapM (defs.itemIn own s) with
      | error e =>
        rw [hx, hxs] at hitems
        cases hitems
      | ok rest =>
        rw [hx, hxs] at hitems
        obtain rfl : Value.blob bytes.toList :: rest = items := Except.ok.inj hitems
        obtain ⟨hlength, payload, hpayload, hrest⟩ := ih hxs
        refine ⟨congrArg Nat.succ hlength, bytes.toList ++ payload, ?_, fun scheme => ?_⟩
        · exact defs.joined_cons.2 ⟨bytes, payload, hx, hpayload, rfl⟩
        · exact joined_cons _ |>.2 ⟨_, payload, encodeFull_encoded _ () _, hrest scheme, rfl⟩

/-- The vector of the items in a stream of any scheme. -/
theorem encodeItems_iff (hitems : xs.mapM (defs.itemIn own s) = .ok items) {stream : Array UInt8} :
    encodeItems scheme items = .ok stream ↔
      xs.length < scheme.capacity ∧ ∃ payload, defs.joined own s xs = .ok payload ∧
        stream.toList = scheme.spelling xs.length ++ payload := by
  obtain ⟨hlength, payload, hpayload, hjoined⟩ := defs.joined_items hitems
  rw [encodeItems, encodeFull_vector_iff_joined, hlength, hjoined, hpayload]

/-- They stand in for the values where these give the same bytes in both schemes, and so they do in a
    stream of their own. -/
theorem encodeItems_of_joined_eq (hitems : xs.mapM (defs.itemIn own s) = .ok items)
    (hsame : defs.joined scheme s xs = defs.joined own s xs) {stream : Array UInt8} :
    encodeItems scheme items = .ok stream ↔
      defs.encodeFull scheme (.sequence .vector s) (.list xs) = .ok stream := by
  rw [defs.encodeItems_iff hitems, encodeFull_vector_iff_joined, hsame]

/-- In a stream of a scheme in which the values can be encoded as well, they can be put, and stand in
    for the values just when these give the same bytes in both schemes. -/
theorem exists_encodeItems (hitems : xs.mapM (defs.itemIn own s) = .ok items) {bytes : Array UInt8}
    (hbytes : defs.encodeFull scheme (.sequence .vector s) (.list xs) = .ok bytes) :
    ∃ payload stream, defs.joined own s xs = .ok payload ∧ encodeItems scheme items = .ok stream ∧
      stream.toList = scheme.spelling xs.length ++ payload ∧
      (stream = bytes ↔ defs.joined scheme s xs = .ok payload) := by
  obtain ⟨hlt, wanted, hwanted, hlist⟩ := defs.encodeFull_vector_iff_joined.1 hbytes
  obtain ⟨_, payload, hpayload, _⟩ := defs.joined_items hitems
  refine ⟨payload, (scheme.spelling xs.length ++ payload).toArray, hpayload, ?_, rfl, ?_⟩
  · exact (defs.encodeItems_iff hitems).2 ⟨hlt, payload, hpayload, rfl⟩
  · rw [← Array.toList_inj, hlist, hwanted, List.toList_toArray]
    constructor
    · intro hsame
      rw [List.append_cancel_left hsame]
    · intro hsame
      rw [Except.ok.inj hsame]

/-- Items that are encoded ahead are classic. Their vector in a stream of any scheme is the count of
    that scheme before the classic bytes of the values. It is the vector of the values if the stream
    is classic, or else if they give the same bytes in its scheme. The values are then read back. -/
theorem encodeFull_encodedItems :
    (∀ {ι ω : Type} (defs : Definitions ι ω) (s : Schema ι ω) (xs items : List Value),
      xs.mapM (defs.encodedItem s) = .ok items →
      ∀ (scheme : Scheme) (bytes : Array UInt8),
        defs.encodeFull scheme (.sequence .vector s) (.list xs) = .ok bytes →
        ∃ payload stream, defs.joined .classic s xs = .ok payload ∧
          (none : Definitions Empty Unit).encodeFull scheme (.sequence .vector (.encoded ()))
            (.list items) = .ok stream ∧
          stream.toList = scheme.spelling xs.length ++ payload ∧
          (scheme = .classic → stream = bytes) ∧
          (stream = bytes ↔ defs.joined scheme s xs = .ok payload)) ∧
    ∀ {ι : Type} (defs : Definitions ι Empty) (s : Schema ι Empty) (xs items : List Value),
      xs.mapM (defs.encodedItem s) = .ok items →
      ∀ (source : Source) (stream : Array UInt8) (rest : List UInt8),
        (none : Definitions Empty Unit).encodeFull source.scheme (.sequence .vector (.encoded ()))
          (.list items) = .ok stream →
        defs.joined source.scheme s xs = defs.joined .classic s xs →
        defs.WellFormed (.sequence .vector s) →
        defs.HasType (.sequence .vector s) (.list xs) →
        (∀ t w, defs.Within (.sequence .vector s) (.list xs) t w → defs.Fits source.scheme t w) →
        defs.KeysCoded (.sequence .vector s) →
        source.bytes = stream.toList ++ rest →
        defs.read (.sequence .vector s) source =
          .ok (defs.forget (.sequence .vector s) (.list xs)) (source.withBytes rest) := by
  constructor
  · intro ι ω defs s xs items hitems scheme bytes hbytes
    obtain ⟨payload, stream, hpayload, hstream, hlist, hsame⟩ :=
      defs.exists_encodeItems hitems hbytes
    refine ⟨payload, stream, hpayload, hstream, hlist, ?_, hsame⟩
    rintro rfl
    exact hsame.2 hpayload
  · intro ι defs s xs items hitems source stream rest hstream hsame hwell htype hfits hkeys hbytes
    have hvector : defs.encodeFull source.scheme (.sequence .vector s) (.list xs) = .ok stream :=
      (defs.encodeItems_of_joined_eq hitems hsame).1 hstream
    exact read_encodeFull hwell htype hfits hkeys hvector hbytes

open Catalogue

/-- Two words that are encoded ahead, in a stream of the other scheme. A word is the same in both. -/
theorem encodeFull_encodedItems_words :
    (none : Definitions Empty Unit).encodeFull .jam (.sequence .vector (.encoded ()))
        (.list [.blob [1, 0], .blob [2, 0]]) = .ok #[2, 1, 0, 2, 0] ∧
      none.read (vector u16) (.decoder .jam (.slice [2, 1, 0, 2, 0, 99])) =
        .ok (.list [.int 1, .int 2]) (.decoder .jam (.slice [99])) := by
  have hitems : [Value.int 1, .int 2].mapM ((none : Definitions Empty Empty).encodedItem u16) =
      .ok [.blob [1, 0], .blob [2, 0]] := rfl
  have hbytes : (none : Definitions Empty Empty).encodeFull .jam (vector u16)
      (.list [.int 1, .int 2]) = .ok #[2, 1, 0, 2, 0] := rfl
  have hjoined : (none : Definitions Empty Empty).joined .jam u16 [.int 1, .int 2] =
      .ok [1, 0, 2, 0] := rfl
  obtain ⟨payload, stream, hpayload, hstream, -, -, hsame⟩ :=
    encodeFull_encodedItems.1 none u16 _ _ hitems .jam _ hbytes
  obtain rfl : [1, 0, 2, 0] = payload := Except.ok.inj hpayload
  obtain rfl := hsame.2 hjoined
  refine ⟨hstream, ?_⟩
  have hwithin : ∀ {P : Schema Empty Empty → Value → Prop},
      P (vector u16) (.list [.int 1, .int 2]) → P u16 (.int 1) → P u16 (.int 2) →
      ∀ t w, none.Within (vector u16) (.list [.int 1, .int 2]) t w → P t w :=
    fun hvector hone htwo => forall_within_sequence hvector (List.forall_mem_cons.2
      ⟨forall_within_of_parts hone nofun,
        List.forall_mem_singleton.2 (forall_within_of_parts htwo nofun)⟩)
  have hoccurs : ∀ {P : Schema Empty Empty → Prop}, P (vector u16) → P u16 →
      ∀ t, none.Occurs (vector u16) t → P t := by
    intro P hvector hitem
    refine forall_occurs_of_parts nofun hvector fun part hpart => ?_
    obtain rfl : part = u16 := List.mem_singleton.1 hpart
    exact forall_occurs_of_parts nofun hitem nofun
  have hnonempty : ∀ v ∈ [Value.int 1, .int 2], ∀ bytes,
      (none : Definitions Empty Empty).encodeFull .jam u16 v = .ok bytes → bytes ≠ #[] := by
    rintro v hv bytes hencode rfl
    obtain rfl | hv := List.mem_cons.1 hv
    · cases hencode
    · obtain rfl := List.mem_singleton.1 hv
      cases hencode
  exact encodeFull_encodedItems.2 none u16 _ _ hitems (.decoder .jam (.slice [2, 1, 0, 2, 0, 99]))
    #[2, 1, 0, 2, 0] [99] hstream rfl (hoccurs trivial trivial)
    (hwithin (Nat.le_of_ble_eq_true rfl) rfl rfl)
    (hwithin ⟨by decide, fun _ => hnonempty⟩ trivial trivial) (hoccurs nofun nofun) rfl

/-- The compact form of a number that was encoded ahead is another number in a stream of the other
    scheme, which is no longer that of the number. -/
theorem not_encodeFull_encodedItems :
    (none : Definitions Empty Empty).encodedItem compactU32 (.int 64) = .ok (.blob [1, 1]) ∧
      (none : Definitions Empty Empty).encodeFull .jam (vector compactU32) (.list [.int 64]) =
        .ok #[1, 64] ∧
      (none : Definitions Empty Unit).encodeFull .jam (.sequence .vector (.encoded ()))
        (.list [.blob [1, 1]]) = .ok #[1, 1, 1] ∧
      none.read (vector compactU32) (.decoder .jam (.slice [1, 1, 1])) =
        .ok (.list [.int 1]) (.decoder .jam (.slice [1])) :=
  ⟨rfl, rfl, rfl, rfl⟩

end Scale.Definitions
