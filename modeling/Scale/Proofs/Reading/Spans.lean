import Scale.Decode
import Scale.Encode
import Scale.Proofs.Counts
import Scale.Proofs.FixedInt
import Scale.Proofs.Utf8

namespace Scale

open Writer

variable {α : Type} {source middle after : Source} {bytes : List UInt8}

/-- The second source is what is left of the first one after the bytes that the step emits. -/
def Writer.Spans (put : Writer Unit) (source after : Source) : Prop :=
  ∃ bytes rest, Emits source.scheme put bytes ∧ source.bytes = bytes ++ rest ∧
    after = source.withBytes rest

theorem Writer.Spans.pure (source : Source) : Spans (Pure.pure ()) source source :=
  ⟨[], source.bytes, Emits.pure, rfl, (Source.withBytes_bytes source).symm⟩

theorem Writer.Spans.bind {first second : Writer Unit} (hfirst : Spans first source middle)
    (hsecond : Spans second middle after) :
    Spans (first >>= fun _ => second) source after := by
  obtain ⟨xs, rest, hxs, hsource, rfl⟩ := hfirst
  obtain ⟨ys, last, hys, hmiddle, rfl⟩ := hsecond
  rw [Source.bytes_withBytes] at hmiddle
  rw [Source.scheme_withBytes] at hys
  refine ⟨xs ++ ys, last, hxs.bind hys, ?_, Source.withBytes_withBytes _ _ _⟩
  rw [hsource, hmiddle, List.append_assoc]

/-- Wherever the step succeeds, writing its value spans the bytes that it took. -/
def Reader.Canonical (step : Reader α) (put : α → Writer Unit) : Prop :=
  ∀ ⦃source after : Source⦄ ⦃a : α⦄, step source = .ok a after → Spans (put a) source after

namespace Reader

theorem canonical_takeByte : Canonical takeByte putByte := by
  intro source after byte hrun
  cases hbytes : source.bytes with
  | nil =>
    rw [takeByte_of_nil hbytes] at hrun
    cases hrun
  | cons first rest =>
    rw [takeByte_of_cons hbytes] at hrun
    obtain ⟨rfl, rfl⟩ := EStateM.Result.ok.inj hrun
    exact ⟨[first], rest, Emits.putByte first, hbytes, rfl⟩

theorem length_of_read {amount : Nat} (hrun : read amount source = .ok bytes after) :
    bytes.length = amount := by
  by_cases hle : amount ≤ source.bytes.length
  · rw [read_of_le hle] at hrun
    rw [← (EStateM.Result.ok.inj hrun).1, List.length_take_of_le hle]
  · rw [read_of_lt (Nat.not_le.1 hle)] at hrun
    cases hrun

theorem canonical_read (amount : Nat) : Canonical (read amount) putSpan := by
  intro source after bytes hrun
  by_cases hle : amount ≤ source.bytes.length
  · rw [read_of_le hle] at hrun
    obtain ⟨rfl, rfl⟩ := EStateM.Result.ok.inj hrun
    exact ⟨_, _, Emits.putSpan _, (List.take_append_drop _ _).symm, rfl⟩
  · rw [read_of_lt (Nat.not_le.1 hle)] at hrun
    cases hrun

theorem canonical_takeCompact (t : IntegerType) : Canonical (takeCompact t) putCompact := by
  intro source after n hrun
  obtain ⟨m, rest, rfl, _, hlt, hbytes, rfl⟩ := bytes_of_takeCompact hrun
  exact ⟨_, rest, emits_putCompact_iff.2 ⟨Int.natCast_nonneg m, hlt, rfl⟩, hbytes, rfl⟩

theorem canonical_takeCount (limit : Nat) : Canonical (takeCount limit) putCount := by
  intro source after count hrun
  obtain ⟨rest, _, hlt, hbytes, rfl⟩ := bytes_of_takeCount hrun
  exact ⟨_, rest, emits_putCount_iff.2 ⟨hlt, rfl⟩, hbytes, rfl⟩

theorem canonical_takeItemCount (itemSize limit : Nat) :
    Canonical (takeItemCount itemSize limit) putCount := by
  intro source after count hrun
  obtain ⟨rest, _, hlt, hbytes, rfl⟩ := bytes_of_takeItemCount hrun
  exact ⟨_, rest, emits_putCount_iff.2 ⟨hlt, rfl⟩, hbytes, rfl⟩

theorem length_of_readMany {item : Reader α} {n : Nat} {items : List α}
    (hrun : readMany n item source = .ok items after) : items.length = n := by
  induction n generalizing source items with
  | zero =>
    obtain ⟨rfl, _⟩ := Step.pure_eq_ok_iff.1 hrun
    rfl
  | succ n ih =>
    rw [readMany_succ] at hrun
    obtain ⟨a, middle, _, hrest⟩ := Step.bind_eq_ok_iff.1 hrun
    obtain ⟨others, hothers, rfl⟩ := Step.map_eq_ok_iff.1 hrest
    rw [List.length_cons, ih hothers]

theorem Canonical.readMany {item : Reader α} {put : α → Writer Unit} (hitem : Canonical item put)
    (n : Nat) : Canonical (readMany n item) fun items => items.forM put := by
  intro source after items hrun
  induction n generalizing source items with
  | zero =>
    obtain ⟨rfl, rfl⟩ := Step.pure_eq_ok_iff.1 hrun
    exact Spans.pure source
  | succ n ih =>
    rw [readMany_succ] at hrun
    obtain ⟨a, middle, ha, hrest⟩ := Step.bind_eq_ok_iff.1 hrun
    obtain ⟨others, hothers, rfl⟩ := Step.map_eq_ok_iff.1 hrest
    exact (hitem ha).bind (ih hothers)

/-- A counted run of items, read with a count, is what writing these items spans. -/
theorem Canonical.takeCounted {item : Reader α} {put : α → Writer Unit} (hitem : Canonical item put)
    (itemSize limit : Nat) : Canonical (takeCounted itemSize limit item) (putCounted put) := by
  intro source after items hrun
  obtain ⟨count, middle, hcount, hitems⟩ := Step.bind_eq_ok_iff.1 hrun
  have hspans := canonical_takeItemCount _ _ hcount
  rw [← length_of_readMany hitems] at hspans
  exact hspans.bind (hitem.readMany count hitems)

theorem canonical_takeBool : Canonical takeBool putBool := by
  intro source after b hrun
  obtain ⟨byte, middle, hbyte, hmatch⟩ := Step.bind_eq_ok_iff.1 hrun
  have hspans := canonical_takeByte hbyte
  rcases hnumber : byte.toNat with _ | _ | other
  all_goals rw [hnumber] at hmatch
  · obtain rfl : byte = 0 := UInt8.toNat_inj.1 hnumber
    obtain ⟨rfl, rfl⟩ := Step.pure_eq_ok_iff.1 hmatch
    exact hspans
  · obtain rfl : byte = 1 := UInt8.toNat_inj.1 hnumber
    obtain ⟨rfl, rfl⟩ := Step.pure_eq_ok_iff.1 hmatch
    exact hspans
  · cases hmatch

theorem canonical_takePacked : Canonical takePacked putPacked := by
  intro source after v hrun
  obtain ⟨byte, middle, hbyte, hmatch⟩ := Step.bind_eq_ok_iff.1 hrun
  have hspans := canonical_takeByte hbyte
  rcases hnumber : byte.toNat with _ | _ | _ | other
  all_goals rw [hnumber] at hmatch
  · obtain rfl : byte = 0 := UInt8.toNat_inj.1 hnumber
    obtain ⟨rfl, rfl⟩ := Step.pure_eq_ok_iff.1 hmatch
    exact hspans
  · obtain rfl : byte = 1 := UInt8.toNat_inj.1 hnumber
    obtain ⟨rfl, rfl⟩ := Step.pure_eq_ok_iff.1 hmatch
    exact hspans
  · obtain rfl : byte = 2 := UInt8.toNat_inj.1 hnumber
    obtain ⟨rfl, rfl⟩ := Step.pure_eq_ok_iff.1 hmatch
    exact hspans
  · cases hmatch

theorem canonical_takeTag {alternatives : Nat} :
    Canonical (takeTag alternatives) fun tag => putByte (UInt8.ofNat tag) := by
  intro source after tag hrun
  obtain ⟨byte, middle, hbyte, hif⟩ := Step.bind_eq_ok_iff.1 hrun
  have hspans := canonical_takeByte hbyte
  split at hif
  · obtain ⟨rfl, rfl⟩ := Step.pure_eq_ok_iff.1 hif
    dsimp only
    rwa [UInt8.ofNat_toNat]
  · cases hif

theorem lt_of_takeTag {alternatives tag : Nat} (hrun : takeTag alternatives source = .ok tag after) :
    tag < alternatives := by
  obtain ⟨byte, middle, _, hif⟩ := Step.bind_eq_ok_iff.1 hrun
  split at hif
  · rename_i hlt
    obtain ⟨rfl, rfl⟩ := Step.pure_eq_ok_iff.1 hif
    exact hlt
  · cases hif

theorem canonical_takeCountedSpan : Canonical takeCountedSpan putCountedSpan := by
  intro source after bytes hrun
  obtain ⟨count, middle, hcount, hread⟩ := Step.bind_eq_ok_iff.1 hrun
  rw [readSpan_eq_read] at hread
  have hspans := canonical_takeCount _ hcount
  rw [← length_of_read hread] at hspans
  exact hspans.bind (canonical_read _ hread)

theorem canonical_takeText :
    Canonical takeText fun s => putCountedSpan s.toUTF8.data.toList := by
  intro source after s hrun
  obtain ⟨bytes, middle, hspan, hmatch⟩ := Step.bind_eq_ok_iff.1 hrun
  cases htext : textOfBytes? bytes with
  | none =>
    rw [htext] at hmatch
    cases hmatch
  | some text =>
    rw [htext] at hmatch
    obtain ⟨rfl, rfl⟩ := Step.pure_eq_ok_iff.1 hmatch
    dsimp only
    rw [textOfBytes?_eq_some_iff.1 htext]
    exact canonical_takeCountedSpan hspan

theorem fields_of_ofPacked? {count : Nat} {bits : BitSeq}
    (hbits : BitSeq.ofPacked? count bytes = some bits) :
    bits.length = count ∧ bits.bytes = bytes := by
  unfold BitSeq.ofPacked? at hbits
  split at hbits
  · split at hbits
    · obtain rfl := Option.some.inj hbits
      exact ⟨rfl, rfl⟩
    · cases hbits
  · cases hbits

theorem canonical_takeBits : Canonical BitSeq.take BitSeq.put := by
  intro source after bits hrun
  rw [BitSeq.take_eq] at hrun
  obtain ⟨count, middle, hcount, hneeds⟩ := Step.bind_eq_ok_iff.1 hrun
  obtain ⟨_, same, hneed, hreads⟩ := Step.bind_eq_ok_iff.1 hneeds
  obtain rfl := eq_of_need hneed
  obtain ⟨bytes, last, hread, hmatch⟩ := Step.bind_eq_ok_iff.1 hreads
  cases hbits : BitSeq.ofPacked? count bytes with
  | none =>
    rw [hbits] at hmatch
    cases hmatch
  | some packed =>
    rw [hbits] at hmatch
    obtain ⟨rfl, rfl⟩ := Step.pure_eq_ok_iff.1 hmatch
    obtain ⟨hlength, hbytes⟩ := fields_of_ofPacked? hbits
    rw [BitSeq.put, hlength, hbytes]
    exact (canonical_takeCount _ hcount).bind (canonical_read _ hread)

theorem canonical_takeFixed (t : FixedInt) : Canonical t.take t.put := by
  intro source after n hrun
  obtain ⟨bytes, hread, rfl⟩ := Step.map_eq_ok_iff.1 hrun
  rw [FixedInt.put, t.toBytes_ofBytes (length_of_read hread)]
  exact canonical_read _ hread

theorem canonical_takeWide (width : Nat) :
    Canonical (WideUInt.take : Reader (WideUInt width)) WideUInt.put := by
  intro source after n hrun
  obtain ⟨bytes, hread, rfl⟩ := Step.map_eq_ok_iff.1 hrun
  have hlength := length_of_read hread
  have hbytes : littleEndian width (WideUInt.ofBytes bytes : WideUInt width).val = bytes := by
    change littleEndian width (ofLittleEndian (bytes.take width)) = bytes
    rw [List.take_of_length_le (Nat.le_of_eq hlength)]
    exact littleEndian_ofLittleEndian_of_length hlength
  rw [WideUInt.put, hbytes]
  exact canonical_read _ hread

theorem canonical_takeCoded {coding : IntegerCoding α}
    (hcoding : ∀ n a, coding.ofRepr? n = some a → coding.toRepr a = n) :
    Canonical coding.take coding.put := by
  intro source after a hrun
  obtain ⟨n, middle, htake, hmatch⟩ := Step.bind_eq_ok_iff.1 hrun
  cases hvalue : coding.ofRepr? n with
  | none =>
    rw [hvalue] at hmatch
    cases hmatch
  | some value =>
    rw [hvalue] at hmatch
    obtain ⟨rfl, rfl⟩ := Step.pure_eq_ok_iff.1 hmatch
    rw [IntegerCoding.put, hcoding _ _ hvalue]
    exact canonical_takeFixed _ htake

end Reader

end Scale
