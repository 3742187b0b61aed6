import Scale.Catalogue
import Scale.Proofs.Reading.Equations
import Scale.Proofs.Reading.Persistence
import Scale.Proofs.RoundTrip.Steps
import Scale.Proofs.Schema.Typing
import Scale.Proofs.Writing.Equations

namespace Scale

namespace Reader

variable {scheme : Scheme} {source : Source} {rest : List UInt8} {limit n : Nat}

/-- A count above the limit is refused once it has been taken. -/
theorem takeCount_of_lt (hlimit : limit < n) (hword : n ≤ maxCount) (hlt : n < source.scheme.capacity)
    (hbytes : source.bytes = source.scheme.spelling n ++ rest) :
    takeCount limit source = .error .tooManyItems (source.withBytes rest) := by
  have htake := Yields.takeCompact (word_contains_iff.2 hword) hlt source rest rfl hbytes
  have hexceeds : (limit : Int) < n := by omega
  rw [takeCount, Step.bind_of_ok htake, if_pos hexceeds]
  rfl

theorem takeItemCount_of_maxItems_lt {itemSize : Nat} (hmemory : maxItems itemSize < n)
    (hword : n ≤ maxCount) (hlt : n < source.scheme.capacity)
    (hbytes : source.bytes = source.scheme.spelling n ++ rest) :
    takeItemCount itemSize limit source = .error .tooManyItems (source.withBytes rest) := by
  rw [takeItemCount_eq]
  exact Step.bind_of_error (takeCount_of_lt (Nat.lt_of_le_of_lt (Nat.min_le_right _ _) hmemory) hword
    hlt hbytes)

/-- Items that take memory are refused when there are more of them than bytes. -/
theorem takeItemCount_of_length_lt {itemSize : Nat} (hsize : itemSize ≠ 0) (hlimit : n ≤ limit)
    (hmemory : n ≤ maxItems itemSize) (hlt : n < source.scheme.capacity)
    (hbytes : source.bytes = source.scheme.spelling n ++ rest) (hfew : rest.length < n) :
    takeItemCount itemSize limit source = .error .notEnoughData (source.withBytes rest) := by
  have htake := Yields.takeCount (Nat.le_min.2 ⟨hlimit, hmemory⟩)
    (Nat.le_trans hmemory (maxItems_le_maxCount itemSize)) hlt source rest rfl hbytes
  have hneed : need n (source.withBytes rest) = .error .notEnoughData (source.withBytes rest) :=
    need_of_lt (by rwa [Source.bytes_withBytes])
  rw [takeItemCount_eq, Step.bind_of_ok htake, if_pos hsize, Step.bind_of_error hneed]

end Reader

namespace Definitions

open Reader Writer

variable {ι : Type} {defs : Definitions ι Empty} {scheme : Scheme}

/-- A value that is read from its own bytes is read from them whatever follows. -/
theorem restores_of_read {item : Schema ι Empty} {v w : Value}
    (hread : ∀ bytes, defs.encodeFull scheme item v = .ok bytes →
      defs.read item (.decoder scheme (.slice bytes.toList)) = .ok w (.decoder scheme (.slice []))) :
    Restores scheme (defs.write item v) (defs.read item) w := by
  refine ⟨defs.uniform_write item v, fun bytes hemits => ?_⟩
  have hencode : defs.encodeFull scheme item v = .ok bytes.toArray :=
    defs.encodeFull_eq_ok_iff.2 (by simpa using hemits)
  obtain ⟨_, taken, hbytes, hyields⟩ := defs.persists_read item (hread _ hencode)
  have htaken : bytes = taken := by simpa [Source.bytes] using hbytes
  subst htaken
  exact fun source rest hscheme hsource => hyields source rest hscheme hsource (Nat.zero_le _)

theorem le_maxItems {itemSize n : Nat} (hmemory : n ≤ maxMemory / max 1 itemSize)
    (hsize : itemSize ≠ 0) : n ≤ maxItems itemSize := by
  rw [Nat.max_eq_right (Nat.one_le_iff_ne_zero.2 hsize)] at hmemory
  rwa [maxItems, if_neg hsize]

/-- A run of items is refused for its count only: when there are more items without size than are
    ever read, or fewer bytes than there are items with a size. -/
theorem read_sequence_of_emits {kind : SequenceKind} {item : Schema ι Empty} {vs : List Value}
    {value : Value → Value} {payload rest : List UInt8} {source : Source}
    (hitems : ∀ v ∈ vs, Restores source.scheme (defs.write item v) (defs.read item) (value v))
    (hpayload : Emits source.scheme (vs.forM (defs.write item)) payload)
    (hbytes : source.bytes = source.scheme.spelling vs.length ++ (payload ++ rest))
    (hlt : vs.length < source.scheme.capacity) (hlimit : vs.length ≤ kind.limit)
    (hmemory : vs.length ≤ maxMemory / max 1 (item.size defs.layout)) :
    defs.read (.sequence kind item) source =
      if item.size defs.layout = 0 ∧ maxZeroSized < vs.length then
        .error .tooManyItems (source.withBytes (payload ++ rest))
      else if item.size defs.layout ≠ 0 ∧ payload.length + rest.length < vs.length then
        .error .notEnoughData (source.withBytes (payload ++ rest))
      else
        .ok (.list (vs.map value)) (source.withBytes rest) := by
  have hword : vs.length ≤ maxCount :=
    Nat.le_trans (Nat.le_trans hmemory (Nat.div_le_self _ _)) (by decide)
  rw [read_sequence, takeCounted]
  split
  · next hmany =>
    have hrefused : takeItemCount (item.size defs.layout) kind.limit source =
        .error .tooManyItems (source.withBytes (payload ++ rest)) :=
      takeItemCount_of_maxItems_lt (by rw [hmany.1]; exact hmany.2) hword hlt hbytes
    exact Step.bind_of_error (Step.bind_of_error hrefused)
  · next hfew =>
    have hfits : vs.length ≤ maxItems (item.size defs.layout) := by
      by_cases hsize : item.size defs.layout = 0
      · rw [hsize]
        exact Nat.not_lt.1 fun hmany => hfew ⟨hsize, hmany⟩
      · exact le_maxItems hmemory hsize
    split
    · next hshort =>
      have hrefused : takeItemCount (item.size defs.layout) kind.limit source =
          .error .notEnoughData (source.withBytes (payload ++ rest)) :=
        takeItemCount_of_length_lt hshort.1 hlimit hfits hlt hbytes
          (by rw [List.length_append]; exact hshort.2)
      exact Step.bind_of_error (Step.bind_of_error hrefused)
    · next hlong =>
      have hrun := (Restores.forM hitems).yields hpayload
      have hcounted : YieldsBefore source.scheme rest.length
          (takeCounted (item.size defs.layout) kind.limit (defs.read item))
          (source.scheme.spelling vs.length ++ payload) (vs.map value) :=
        YieldsBefore.takeItemCount_bind hlimit hfits hlt
          (fun hsize => Nat.not_lt.1 fun hshort => hlong ⟨hsize, hshort⟩) (hrun.before rest.length)
      exact hcounted.map source rest rfl (by rw [hbytes, List.append_assoc]) (Nat.le_refl _)

/-- A sequence whose items are read from their own bytes is read from its own bytes, unless the count
    is refused. Where having a size and having bytes come to the same for the items, it is refused
    only for very many items without bytes. -/
theorem read_own_sequence {kind : SequenceKind} {item : Schema ι Empty} {vs : List Value}
    {value : Value → Value} {bytes : Array UInt8} {source : Source} {rest : List UInt8}
    (hencode : defs.encodeFull source.scheme (.sequence kind item) (.list vs) = .ok bytes)
    (hbytes : source.bytes = bytes.toList ++ rest) (hlimit : vs.length ≤ kind.limit)
    (hmemory : vs.length ≤ maxMemory / max 1 (item.size defs.layout))
    (hitems : ∀ v ∈ vs, ∀ bytes, defs.encodeFull source.scheme item v = .ok bytes →
      defs.read item (.decoder source.scheme (.slice bytes.toList)) =
        .ok (value v) (.decoder source.scheme (.slice []))) :
    (∃ payload, bytes.toList = source.scheme.spelling vs.length ++ payload ∧
      defs.read (.sequence kind item) source =
        if item.size defs.layout = 0 ∧ maxZeroSized < vs.length then
          .error .tooManyItems (source.withBytes (payload ++ rest))
        else if item.size defs.layout ≠ 0 ∧ payload.length + rest.length < vs.length then
          .error .notEnoughData (source.withBytes (payload ++ rest))
        else
          .ok (.list (vs.map value)) (source.withBytes rest)) ∧
    ((∀ v ∈ vs, defs.encodeFull source.scheme item v = .ok #[] ↔ item.size defs.layout = 0) →
      ∀ e after, defs.read (.sequence kind item) source = .error e after →
        maxZeroSized < vs.length ∧ ∀ v ∈ vs, defs.encodeFull source.scheme item v = .ok #[]) := by
  have huniform : ∀ v ∈ vs, Uniform (defs.write item v) := fun v _ => defs.uniform_write item v
  have hemits := defs.encodeFull_eq_ok_iff.1 hencode
  rw [write_sequence] at hemits
  obtain ⟨count, payload, hsplit, hcount, hpayload⟩ :=
    hemits.of_seq (Uniform.putCount _) (Uniform.forM huniform)
  obtain ⟨hlt, rfl⟩ := emits_putCount_iff.1 hcount
  rw [hsplit, List.append_assoc] at hbytes
  have hread := read_sequence_of_emits (fun v hv => restores_of_read (hitems v hv)) hpayload hbytes
    hlt hlimit hmemory
  refine ⟨⟨payload, hsplit, hread⟩, fun hagree e after hfails => ?_⟩
  rw [hread] at hfails
  split at hfails
  · next hmany => exact ⟨hmany.2, fun v hv => (hagree v hv).2 hmany.1⟩
  · split at hfails
    · next hshort =>
      have hnonempty : ∀ v ∈ vs, ∀ xs, Emits source.scheme (defs.write item v) xs → xs ≠ [] := by
        rintro v hv xs hxs rfl
        exact hshort.1 ((hagree v hv).1 (defs.encodeFull_eq_ok_iff.2 hxs))
      have hle := Restores.length_le_of_emits huniform hnonempty hpayload
      omega
    · cases hfails

open Catalogue in
theorem read_noFields {bytes : Array UInt8}
    (hencode : (none : Definitions Empty Empty).encodeFull .classic noFields (.list [.int 0]) =
      .ok bytes) :
    none.read (noFields : Schema Empty Empty) (.decoder .classic (.slice bytes.toList)) =
      .ok (.list [.int 0]) (.decoder .classic (.slice [])) := by
  obtain rfl := Except.ok.inj hencode
  rfl

open Catalogue in
/-- An item that takes memory and no bytes is read where another byte follows. -/
theorem read_own_sequence_before_byte :
    none.read (vector noFields) (.decoder .classic (.slice [4, 99])) =
      .ok (.list [.list [.int 0]]) (.decoder .classic (.slice [99])) := by
  have hencode : (none : Definitions Empty Empty).encodeFull .classic (vector noFields)
      (.list [.list [.int 0]]) = .ok #[4] := rfl
  have hbytes : (Source.decoder .classic (.slice [4, 99])).bytes =
      (#[4] : Array UInt8).toList ++ [99] := rfl
  have hitems : ∀ v ∈ [Value.list [.int 0]], ∀ bytes,
      (none : Definitions Empty Empty).encodeFull .classic noFields v = .ok bytes →
        none.read (noFields : Schema Empty Empty) (.decoder .classic (.slice bytes.toList)) =
          .ok (id v) (.decoder .classic (.slice [])) :=
    List.forall_mem_singleton.2 fun _ => read_noFields
  obtain ⟨⟨payload, hsplit, hread⟩, _⟩ := read_own_sequence hencode hbytes
    (Nat.le_of_ble_eq_true rfl) (by decide) hitems
  have hcount : [4] ++ [] = [4] ++ payload := hsplit
  obtain rfl := List.append_cancel_left hcount
  exact hread

open Catalogue in
/-- At the end of the bytes it is refused, although it could be read. -/
theorem not_read_own_sequence :
    ¬ ∀ (scheme : Scheme) (kind : SequenceKind) (item : Schema Empty Empty) (vs : List Value)
      (bytes : Array UInt8),
      (∀ v ∈ vs, none.HasType item v) →
      none.encodeFull scheme (.sequence kind item) (.list vs) = .ok bytes →
      vs.length ≤ kind.limit →
      vs.length ≤ maxMemory / max 1 (item.size (none : Definitions Empty Empty).layout) →
      (∀ v ∈ vs, ∀ bytes, none.encodeFull scheme item v = .ok bytes →
        none.read item (.decoder scheme (.slice bytes.toList)) =
          .ok v (.decoder scheme (.slice []))) →
      ∀ e after,
        none.read (.sequence kind item) (.decoder scheme (.slice bytes.toList)) = .error e after →
        maxZeroSized < vs.length ∧ ∀ v ∈ vs, none.encodeFull scheme item v = .ok #[] := by
  intro hreads
  have htype : ∀ v ∈ [Value.list [.int 0]], none.HasType (noFields : Schema Empty Empty) v := by
    refine List.forall_mem_singleton.2 (forall_within_of_parts rfl fun t w hpart => ?_)
    cases hpart with
    | field hi _ _ => cases hi
  have hitems : ∀ v ∈ [Value.list [.int 0]], ∀ bytes,
      (none : Definitions Empty Empty).encodeFull .classic noFields v = .ok bytes →
        none.read (noFields : Schema Empty Empty) (.decoder .classic (.slice bytes.toList)) =
          .ok v (.decoder .classic (.slice [])) :=
    List.forall_mem_singleton.2 fun _ => read_noFields
  have hrefused := hreads .classic .vector noFields [.list [.int 0]] #[4] htype rfl
    (Nat.le_of_ble_eq_true rfl) (by decide) hitems .notEnoughData (.decoder .classic (.slice [])) rfl
  exact absurd hrefused.1 (by decide)

end Definitions

end Scale
