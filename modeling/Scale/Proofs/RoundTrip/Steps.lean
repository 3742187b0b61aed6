import Scale.Decode
import Scale.Encode
import Scale.Proofs.Counts
import Scale.Proofs.FixedInt
import Scale.Proofs.Utf8

namespace Scale

open Writer Reader

variable {α β γ : Type} {scheme : Scheme} {bytes : List UInt8}

/-- Whatever the writing step emits, the reading step takes just that and gives the value. -/
structure Restores (scheme : Scheme) (put : Writer Unit) (step : Reader α) (a : α) : Prop where
  uniform : Uniform put
  yields : ∀ ⦃bytes⦄, Emits scheme put bytes → Yields scheme step bytes a

namespace Restores

theorem of_emits {put : Writer Unit} {step : Reader α} {a : α} (huniform : Uniform put)
    (hemits : Emits scheme put bytes) (hyields : Yields scheme step bytes a) :
    Restores scheme put step a := by
  refine ⟨huniform, fun other hother => ?_⟩
  rw [hother.unique hemits]
  exact hyields

theorem pure (a : α) : Restores scheme (Pure.pure ()) (Pure.pure a) a :=
  of_emits (Uniform.pure ()) Emits.pure (Yields.pure a)

theorem bind {first second : Writer Unit} {step : Reader α} {next : α → Reader β} {a : α} {b : β}
    (hfirst : Restores scheme first step a) (hsecond : Restores scheme second (next a) b) :
    Restores scheme (first >>= fun _ => second) (step >>= next) b := by
  refine ⟨hfirst.uniform.bind fun _ => hsecond.uniform, fun bytes hemits => ?_⟩
  obtain ⟨xs, ys, rfl, hxs, hys⟩ := hemits.of_seq hfirst.uniform hsecond.uniform
  exact (hfirst.yields hxs).bind (hsecond.yields hys)

theorem map {put : Writer Unit} {step : Reader α} {a : α} (f : α → β)
    (hstep : Restores scheme put step a) :
    Restores scheme put (step >>= fun a => Pure.pure (f a)) (f a) :=
  ⟨hstep.uniform, fun _ hemits => (hstep.yields hemits).map⟩

/-- A reading step that ends by looking at what it has read. -/
theorem finish {put : Writer Unit} {step : Reader α} {next : α → Reader β} {a : α} {b : β}
    (hstep : Restores scheme put step a) (hnext : next a = Pure.pure b) :
    Restores scheme put (step >>= next) b := by
  refine ⟨hstep.uniform, fun bytes hemits => ?_⟩
  rw [← List.append_nil bytes]
  refine (hstep.yields hemits).bind ?_
  rw [hnext]
  exact Yields.pure b

/-- A reading step may first make sure of bytes that the writing step emits. -/
theorem need_bind {put : Writer Unit} {step : Reader α} {a : α} {amount : Nat}
    (henough : ∀ bytes, Emits scheme put bytes → amount ≤ bytes.length)
    (hstep : Restores scheme put step a) : Restores scheme put (need amount >>= fun _ => step) a :=
  ⟨hstep.uniform, fun bytes hemits =>
    Yields.need_bind (henough bytes hemits) (hstep.yields hemits)⟩

theorem putByte (byte : UInt8) : Restores scheme (putByte byte) takeByte byte :=
  of_emits (Uniform.putByte byte) (Emits.putByte byte) (Yields.takeByte byte)

theorem putSpan {amount : Nat} (hlength : bytes.length = amount) :
    Restores scheme (putSpan bytes) (read amount) bytes := by
  subst hlength
  exact of_emits (Uniform.putSpan bytes) (Emits.putSpan bytes) (Yields.read bytes)

theorem putCompact {t : IntegerType} {n : Int} (hcontains : t.contains n = true) :
    Restores scheme (putCompact n) (takeCompact t) n := by
  refine ⟨Uniform.putCompact n, fun bytes hemits => ?_⟩
  obtain ⟨hnonneg, hlt, rfl⟩ := emits_putCompact_iff.1 hemits
  have hnumber : (n.toNat : Int) = n := Int.toNat_of_nonneg hnonneg
  have hyields := Yields.takeCompact (t := t) (n := n.toNat) (by rw [hnumber]; exact hcontains) hlt
  rwa [hnumber] at hyields

theorem putCount {count limit : Nat} (hlimit : count ≤ limit) (hword : count ≤ maxCount) :
    Restores scheme (putCount count) (takeCount limit) count := by
  refine ⟨Uniform.putCount count, fun bytes hemits => ?_⟩
  obtain ⟨hlt, rfl⟩ := emits_putCount_iff.1 hemits
  exact Yields.takeCount hlimit hword hlt

theorem forM {put : γ → Writer Unit} {item : Reader α} {value : γ → α} {items : List γ}
    (hitems : ∀ c ∈ items, Restores scheme (put c) item (value c)) :
    Restores scheme (items.forM put) (readMany items.length item) (items.map value) := by
  induction items with
  | nil => exact pure []
  | cons c items ih =>
    rw [List.length_cons, readMany_succ]
    exact (hitems c (by simp)).bind
      ((ih fun other hother => hitems other (by simp [hother])).map (value c :: ·))

theorem mapM {put : γ → Writer Unit} {step : γ → Reader α} {value : γ → α} {items : List γ}
    (hitems : ∀ c ∈ items, Restores scheme (put c) (step c) (value c)) :
    Restores scheme (items.forM put) (items.mapM step) (items.map value) := by
  induction items with
  | nil => exact pure []
  | cons c items ih =>
    rw [List.mapM_cons]
    exact (hitems c (by simp)).bind
      ((ih fun other hother => hitems other (by simp [hother])).map (value c :: ·))

/-- There is a byte for each of the items when none of them emits nothing. -/
theorem length_le_of_emits {put : γ → Writer Unit} {items : List γ}
    (huniform : ∀ c ∈ items, Uniform (put c))
    (hnonempty : ∀ c ∈ items, ∀ bytes, Emits scheme (put c) bytes → bytes ≠ [])
    (hemits : Emits scheme (items.forM put) bytes) : items.length ≤ bytes.length := by
  induction items generalizing bytes with
  | nil => exact Nat.zero_le _
  | cons c items ih =>
    have hrest : ∀ d ∈ items, Uniform (put d) := fun d hd => huniform d (by simp [hd])
    obtain ⟨xs, ys, rfl, hxs, hys⟩ :=
      Emits.of_seq (huniform c (by simp)) (Uniform.forM hrest) hemits
    have hpos := List.length_pos_iff.2 (hnonempty c (by simp) xs hxs)
    have hle := ih hrest (fun d hd => hnonempty d (by simp [hd])) hys
    rw [List.length_cons, List.length_append]
    omega

/-- A counted run of items is restored when there can be so many of them and, unless they have no
    size, each of them emits something. -/
theorem counted {put : γ → Writer Unit} {item : Reader α} {value : γ → α} {items : List γ}
    {itemSize limit : Nat} (hlimit : items.length ≤ limit)
    (hmemory : items.length ≤ maxItems itemSize)
    (hnonempty : itemSize ≠ 0 → ∀ c ∈ items, ∀ bytes, Emits scheme (put c) bytes → bytes ≠ [])
    (hitems : ∀ c ∈ items, Restores scheme (put c) item (value c)) :
    Restores scheme (putCounted put items) (takeCounted itemSize limit item) (items.map value) := by
  have huniform : ∀ c ∈ items, Uniform (put c) := fun c hc => (hitems c hc).uniform
  refine ⟨(Uniform.putCount _).bind fun _ => Uniform.forM huniform, fun bytes hemits => ?_⟩
  obtain ⟨xs, ys, rfl, hxs, hys⟩ := hemits.of_seq (Uniform.putCount _) (Uniform.forM huniform)
  obtain ⟨hlt, rfl⟩ := emits_putCount_iff.1 hxs
  refine Yields.takeItemCount_bind hlimit hmemory hlt (fun hsize => ?_) ((forM hitems).yields hys)
  exact length_le_of_emits huniform (hnonempty hsize) hys

theorem putCountedSpan (hmemory : bytes.length ≤ maxItems 1) :
    Restores scheme (putCountedSpan bytes) takeCountedSpan bytes := by
  refine (putCount hmemory (Nat.le_trans hmemory (maxItems_le_maxCount 1))).bind ?_
  rw [readSpan_eq_read]
  exact putSpan rfl

theorem putBool (b : Bool) : Restores scheme (putBool b) takeBool b := by
  cases b with
  | false => exact (putByte 0).finish rfl
  | true => exact (putByte 1).finish rfl

theorem putTag {i alternatives : Nat} (hlt : i < alternatives) (hbyte : alternatives ≤ 256) :
    Restores scheme (Writer.putByte (UInt8.ofNat i)) (takeTag alternatives) i := by
  have hnumber : (UInt8.ofNat i).toNat = i := by
    rw [UInt8.toNat_ofNat', Nat.mod_eq_of_lt (by omega)]
  refine (putByte (UInt8.ofNat i)).finish ?_
  rw [hnumber, if_pos hlt]

theorem putText {s : String} (hmemory : s.utf8ByteSize ≤ maxItems 1) :
    Restores scheme (Writer.putCountedSpan s.toUTF8.data.toList) takeText s := by
  have htext : textOfBytes? s.toUTF8.data.toList = some s := textOfBytes?_eq_some_iff.2 rfl
  have hspan : Restores scheme (Writer.putCountedSpan s.toUTF8.data.toList) takeCountedSpan
      s.toUTF8.data.toList := putCountedSpan hmemory
  refine hspan.finish ?_
  rw [htext]

theorem putBits {bits : BitSeq} (hmemory : bits.length ≤ maxItems 1) :
    Restores scheme bits.put BitSeq.take bits := by
  rw [BitSeq.put, BitSeq.take_eq]
  refine (putCount hmemory (Nat.le_trans hmemory (maxItems_le_maxCount 1))).bind ?_
  refine need_bind (fun bytes hemits => ?_) ((putSpan bits.length_bytes).finish ?_)
  · have hlength : bytes.length = PackedBits.byteCount bits.length := by
      rw [hemits.unique (Emits.putSpan bits.bytes), bits.length_bytes]
    exact Nat.le_of_eq hlength.symm
  · rw [BitSeq.ofPacked?_self]

theorem putFixed {t : FixedInt} {n : Int} (hcontains : t.contains n = true) :
    Restores scheme (t.put n) t.take n := by
  refine (putSpan (t.length_toBytes n)).finish ?_
  rw [t.ofBytes_toBytes hcontains]

theorem putWide {width : Nat} (n : WideUInt width) : Restores scheme n.put WideUInt.take n := by
  have hlength : (littleEndian width n.val).length = width := length_littleEndian width n.val
  refine (putSpan hlength).finish (congrArg Pure.pure ?_)
  obtain ⟨val, hlt⟩ := n
  unfold WideUInt.ofBytes
  congr
  rw [List.take_of_length_le (Nat.le_of_eq hlength), ofLittleEndian_littleEndian_of_lt hlt]

theorem putCoded {coding : IntegerCoding α} {a : α}
    (hcontains : coding.repr.contains (coding.toRepr a) = true)
    (hvalue : coding.ofRepr? (coding.toRepr a) = some a) :
    Restores scheme (coding.put a) coding.take a := by
  refine (putFixed hcontains).finish ?_
  rw [hvalue]

end Restores

end Scale
