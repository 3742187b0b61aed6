import Scale.Catalogue
import Scale.Proofs.Reading.Collections
import Scale.Proofs.Utf8
import Scale.Proofs.Writing.Verdicts

namespace Scale

open Catalogue

/-- Bytes as the items of a list. -/
def Value.ofBytes (bytes : List UInt8) : Value :=
  .list (bytes.map fun byte => .int byte.toNat)

namespace FixedInt

theorem ofBytes_u8 (byte : UInt8) : FixedInt.u8.ofBytes [byte] = byte.toNat := by
  simp [ofBytes, u8, ofLittleEndian]

theorem toBytes_u8 (byte : UInt8) : FixedInt.u8.toBytes byte.toNat = [byte] := by
  rw [← ofBytes_u8, toBytes_ofBytes _ rfl]

end FixedInt

namespace Writer

/-- Bytes that are written one by one make up the span. -/
theorem forM_putByte (bytes : List UInt8) : bytes.forM putByte = putSpan bytes := by
  induction bytes with
  | nil =>
    funext sink
    exact congrArg (EStateM.Result.ok ()) (Sink.append_nil sink).symm
  | cons byte bytes ih =>
    rw [List.forM_eq_forM, List.forM_cons, ← List.forM_eq_forM, ih]
    exact putByte_putSpan byte bytes

theorem put_u8 (byte : UInt8) : FixedInt.u8.put byte.toNat = putByte byte := by
  rw [FixedInt.put, FixedInt.toBytes_u8]
  funext sink
  exact congrArg (EStateM.Result.ok ()) (Sink.push_eq_append byte sink).symm

end Writer

namespace Reader

variable {source : Source} {n : Nat}

theorem take_u8 : FixedInt.u8.take = (do
    let byte ← takeByte
    return (byte.toNat : Int)) := by
  funext source
  unfold FixedInt.take
  cases hbytes : source.bytes with
  | nil =>
    have hempty : read FixedInt.u8.bytes source = .error .notEnoughData source :=
      read_of_lt (by rw [hbytes]; decide)
    rw [Step.bind_of_error hempty, Step.bind_of_error (takeByte_of_nil hbytes)]
  | cons byte rest =>
    have hone : read FixedInt.u8.bytes source = .ok [byte] (source.withBytes rest) := by
      have hle : 1 ≤ source.bytes.length := by
        rw [hbytes]
        exact Nat.succ_pos _
      rw [show FixedInt.u8.bytes = 1 from rfl, read_of_le hle, hbytes]
      rfl
    rw [Step.bind_of_ok hone, Step.bind_of_ok (takeByte_of_cons hbytes), FixedInt.ofBytes_u8]

/-- Where there are enough bytes, taking them one by one takes the span. -/
theorem readMany_takeByte (hle : n ≤ source.bytes.length) :
    readMany n takeByte source = read n source := by
  induction n generalizing source with
  | zero =>
    rw [read_of_le hle, List.take_zero, List.drop_zero, Source.withBytes_bytes]
    rfl
  | succ n ih =>
    obtain ⟨byte, rest, hbytes⟩ := List.exists_cons_of_length_pos (Nat.lt_of_lt_of_le n.succ_pos hle)
    rw [hbytes] at hle
    have hrest : n ≤ (source.withBytes rest).bytes.length := by
      rw [Source.bytes_withBytes]
      exact Nat.le_of_succ_le_succ hle
    rw [readMany_succ, Step.bind_of_ok (takeByte_of_cons hbytes), Step.bind_of_ok
      ((ih hrest).trans (read_of_le hrest)), read_of_le (hbytes ▸ hle), hbytes]
    simp only [Source.bytes_withBytes, Source.withBytes_withBytes, List.take_succ_cons,
      List.drop_succ_cons]
    rfl

/-- A vector of bytes is short of them where a blob is: after the count. -/
theorem takeCounted_takeByte : takeCounted 1 maxCount takeByte = takeCountedSpan := by
  unfold takeCounted takeCountedSpan
  rw [takeItemCount_eq, Nat.min_eq_right (maxItems_le_maxCount 1), bind_assoc]
  congr 1
  funext n source
  rw [if_pos Nat.one_ne_zero, bind_assoc, readSpan_eq_read]
  by_cases hle : n ≤ source.bytes.length
  · rw [Step.bind_of_ok (need_of_le hle), pure_bind]
    exact readMany_takeByte hle
  · rw [Step.bind_of_error (need_of_lt (Nat.not_le.1 hle)), read_of_lt (Nat.not_le.1 hle)]

/-- The bytes of a span are those after the count. -/
theorem bytes_of_takeCountedSpan {after : Source} {bytes : List UInt8}
    (hspan : takeCountedSpan source = .ok bytes after) :
    source.bytes = source.scheme.spelling bytes.length ++ bytes ++ after.bytes := by
  obtain ⟨out, rest, hemits, hbytes, rfl⟩ := canonical_takeCountedSpan hspan
  obtain ⟨xs, ys, rfl, hcount, hput⟩ :=
    hemits.of_seq (Writer.Uniform.putCount _) (Writer.Uniform.putSpan _)
  rw [hbytes, Source.bytes_withBytes, (Writer.emits_putCount_iff.1 hcount).2,
    hput.unique (Writer.Emits.putSpan bytes)]

end Reader

namespace Definitions

section

variable {ι ω : Type} (defs : Definitions ι ω)

theorem write_blob (bytes : List UInt8) :
    defs.write .blob (.blob bytes) = Writer.putCountedSpan bytes := by
  rw [← writeWith_write]
  rfl

theorem write_text (s : String) :
    defs.write .text (.text s) = defs.write .blob (.blob s.toUTF8.data.toList) := by
  rw [← writeWith_write, ← writeWith_write]
  rfl

theorem write_ofBytes (bytes : List UInt8) :
    defs.write (vector u8) (.ofBytes bytes) = defs.write .blob (.blob bytes) := by
  have hitem (byte : UInt8) : defs.write u8 (.int byte.toNat) = Writer.putByte byte := by
    rw [← writeWith_write]
    exact Writer.put_u8 byte
  rw [write_blob, vector, Value.ofBytes, write_sequence, Writer.putCounted, Writer.putCountedSpan,
    ← Writer.forM_putByte, List.length_map]
  simp only [List.forM_eq_forM, List.forM_map, hitem]

theorem encodeFull_blob (scheme : Scheme) (bytes : List UInt8) :
    defs.encodeFull scheme .blob (.blob bytes) =
      if bytes.length < scheme.capacity then
        .ok (scheme.spelling bytes.length ++ bytes).toArray
      else .error .valueTooBig := by
  by_cases hlt : bytes.length < scheme.capacity
  · rw [if_pos hlt, encodeFull_eq_ok_iff, write_blob]
    exact (Writer.emits_putCount_iff.2 ⟨hlt, rfl⟩).bind (Writer.Emits.putSpan bytes)
  · rw [if_neg hlt]
    have hcount : Writer.putCount bytes.length = Writer.putCompact bytes.length := by
      rw [Writer.putCompact_of_nonneg (Int.natCast_nonneg _), Int.toNat_natCast]
      rfl
    apply Writer.encodeFull_of_verdict
    rw [write_blob, Writer.putCountedSpan, Writer.verdict_seq (Writer.Uniform.putCount _)
      (Writer.Uniform.putSpan _), hcount, Writer.verdict_putCompact, if_neg (by omega),
      if_pos (by omega), Option.some_or]

end

variable {ι : Type} (defs : Definitions ι Empty)

theorem read_blob : defs.read .blob = (do
    let bytes ← Reader.takeCountedSpan
    return .blob bytes) := by
  rw [← readWith_read]
  rfl

theorem read_text : defs.read .text = (do
    let s ← Reader.takeText
    return .text s) := by
  rw [← readWith_read]
  rfl

theorem read_vector_u8 : defs.read (vector u8) = (do
    let bytes ← Reader.takeCountedSpan
    return .ofBytes bytes) := by
  have hitem : defs.read u8 = (do let byte ← Reader.takeByte; return .int byte.toNat) := by
    rw [← readWith_read, u8, Schema.readWith, Reader.take_u8, bind_assoc]
    rfl
  have hsize : (u8 : Schema ι Empty).size defs.layout = 1 := rfl
  rw [vector, read_sequence, hitem, Reader.takeCounted_map, hsize, SequenceKind.limit,
    Reader.takeCounted_takeByte, bind_assoc]
  rfl

/-- A text is read where a span is, and refused afterwards when the bytes are not well-formed. -/
theorem read_text_of_span {source after : Source} {bytes : List UInt8}
    (hspan : Reader.takeCountedSpan source = .ok bytes after) :
    (Utf8.WellFormed bytes ∧
      ∃ s : String, s.toUTF8.data.toList = bytes ∧ defs.read .text source = .ok (.text s) after) ∨
    (¬ Utf8.WellFormed bytes ∧ defs.read .text source = .error .unexpectedValue after) := by
  rw [read_text]
  cases htext : textOfBytes? bytes with
  | some s =>
    have htake : Reader.takeText source = .ok s after := by
      rw [Reader.takeText, Step.bind_of_ok hspan, htext]
      rfl
    have hs := textOfBytes?_eq_some_iff.1 htext
    exact .inl ⟨wellFormed_iff_exists_text.2 ⟨s, hs⟩, s, hs, Step.bind_of_ok htake⟩
  | none =>
    have htake : Reader.takeText source = .error .unexpectedValue after := by
      rw [Reader.takeText, Step.bind_of_ok hspan, htext]
      rfl
    refine .inr ⟨fun hwell => ?_, Step.bind_of_error htake⟩
    obtain ⟨s, hs⟩ := wellFormed_iff_exists_text.1 hwell
    rw [textOfBytes?_eq_some_iff.2 hs] at htext
    cases htext

/-- Blobs, vectors of bytes and texts share one format: the count and then the bytes, whether they go
    through one by one or as a span. They are refused alike, but for a text that is not well-formed,
    which is found out once its bytes have been taken. -/
theorem raw_spans_agree :
    (∀ (scheme : Scheme) (bytes : List UInt8), defs.encodeFull scheme .blob (.blob bytes) =
      if bytes.length < scheme.capacity then
        .ok (scheme.spelling bytes.length ++ bytes).toArray
      else .error .valueTooBig) ∧
    (∀ bytes : List UInt8,
      defs.write (vector u8) (.ofBytes bytes) = defs.write .blob (.blob bytes)) ∧
    (∀ s : String, defs.write .text (.text s) = defs.write .blob (.blob s.toUTF8.data.toList)) ∧
    (∀ bytes : List UInt8,
      Utf8.WellFormed bytes ↔ ∃ s : String, s.toUTF8.data.toList = bytes) ∧
    Reader.Parallels (defs.read .blob) (defs.read (vector u8))
      (fun blob items => ∃ bytes : List UInt8, blob = .blob bytes ∧ items = .ofBytes bytes) ∧
    ∀ source : Source, match defs.read .blob source with
      | .ok blob after => ∃ bytes : List UInt8, blob = .blob bytes ∧
        source.bytes = source.scheme.spelling bytes.length ++ bytes ++ after.bytes ∧
        ((Utf8.WellFormed bytes ∧ ∃ s : String,
            s.toUTF8.data.toList = bytes ∧ defs.read .text source = .ok (.text s) after) ∨
          (¬ Utf8.WellFormed bytes ∧ defs.read .text source = .error .unexpectedValue after))
      | .error e after => defs.read .text source = .error e after := by
  refine ⟨defs.encodeFull_blob, defs.write_ofBytes, defs.write_text,
    fun _ => wellFormed_iff_exists_text, ?_, fun source => ?_⟩
  · rw [read_blob, read_vector_u8]
    exact .of_map fun bytes => ⟨bytes, rfl, rfl⟩
  · cases hspan : Reader.takeCountedSpan source with
    | ok bytes after =>
      rw [read_blob, Step.bind_of_ok hspan]
      exact ⟨bytes, rfl, Reader.bytes_of_takeCountedSpan hspan, defs.read_text_of_span hspan⟩
    | error e after =>
      have htake : Reader.takeText source = .error e after := Step.bind_of_error hspan
      rw [read_blob, read_text, Step.bind_of_error hspan]
      exact Step.bind_of_error htake

end Definitions

end Scale
