import Scale.Append
import Scale.Proofs.Reading.Equations
import Scale.Proofs.RoundTrip.Parts
import Scale.Proofs.Safety.Integers

namespace Scale

namespace WideUInt

variable {width : Nat}

/-- The number of bits up to the highest one set. -/
def bitLength (n : Nat) : Nat :=
  if n = 0 then 0 else n.log2 + 1

theorem bitLength_le_iff {n bits : Nat} : bitLength n ≤ bits ↔ n < 2 ^ bits := by
  unfold bitLength
  split
  · next hzero =>
    subst hzero
    exact iff_of_true (Nat.zero_le bits) (Nat.pow_pos (by decide))
  · next hpos => exact Nat.log2_lt hpos

theorem two_pow_bits (width : Nat) : 2 ^ (8 * width) = 256 ^ width :=
  Nat.pow_mul 2 8 width

/-- A number, unless it has more bits than the width. -/
def bareOfNat? (width n : Nat) : Option Nat :=
  if bitLength n ≤ 8 * width then some n else none

/-- The same, but the number is handed back if it has more bits. -/
def bareOfNat (width n : Nat) : Except Nat Nat :=
  if bitLength n ≤ 8 * width then .ok n else .error n

/-- The number of a machine word, by way of the bytes of the widest. -/
def bareOfWord (word : BitVec 128) : Nat :=
  ofLittleEndian (littleEndian 16 word.toNat)

/-- The number of which all bits of the width are set. -/
def bareMax (width : Nat) : Nat :=
  ofLittleEndian (List.replicate width 255)

/-- Reads a number of the width. -/
def bareTake (width : Nat) : Reader Nat := do
  return ofLittleEndian (← Reader.read width)

/-- The bytes that are written for a number. -/
def bareBytes (width n : Nat) : List UInt8 :=
  Buffer.resize width (Checked.bytesOfBig n)

/-- A number has no more bits than the width if it has no more bytes. -/
theorem bitLength_le_width_iff {n : Nat} : bitLength n ≤ 8 * width ↔ n < 256 ^ width := by
  rw [bitLength_le_iff, two_pow_bits]

theorem bareOfNat?_eq (n : Nat) :
    bareOfNat? width n = (ofNat? n : Option (WideUInt width)).map val := by
  unfold bareOfNat? ofNat?
  by_cases hlt : n < 256 ^ width
  · rw [if_pos (bitLength_le_width_iff.2 hlt), dif_pos hlt]
    rfl
  · rw [if_neg (mt bitLength_le_width_iff.1 hlt), dif_neg hlt]
    rfl

theorem bareOfNat_eq (n : Nat) :
    bareOfNat width n = (ofNat n : Except Nat (WideUInt width)).map val := by
  unfold bareOfNat ofNat
  by_cases hlt : n < 256 ^ width
  · rw [if_pos (bitLength_le_width_iff.2 hlt), dif_pos hlt]
    rfl
  · rw [if_neg (mt bitLength_le_width_iff.1 hlt), dif_neg hlt]
    rfl

theorem bareOfWord_eq (word : BitVec 128) (hw : 128 ≤ 8 * width) :
    bareOfWord word = (ofBitVec hw word).val :=
  ofLittleEndian_littleEndian_of_lt word.isLt

theorem bareMax_eq (width : Nat) : bareMax width = (max : WideUInt width).val := by
  unfold bareMax max
  dsimp only
  induction width with
  | zero => rfl
  | succ width ih =>
    have hpos : 0 < 256 ^ width := Nat.pow_pos (by decide)
    have hbyte : (255 : UInt8).toNat = 255 := rfl
    rw [List.replicate_succ, ofLittleEndian, ih, Nat.pow_succ, hbyte]
    omega

theorem val_ofBytes {bytes : List UInt8} (hlength : bytes.length = width) :
    (ofBytes bytes : WideUInt width).val = ofLittleEndian bytes :=
  congrArg ofLittleEndian (List.take_of_length_le (Nat.le_of_eq hlength))

theorem bareTake_eq (width : Nat) : bareTake width = (do
    let n : WideUInt width ← take
    return n.val) := by
  rw [bareTake, take, bind_assoc]
  refine Step.bind_congr_of_ok fun {_ bytes _} hread => ?_
  rw [pure_bind, val_ofBytes (Reader.length_of_read hread)]

/-- Just the numbers that are too wide are refused, and handed back if that is what is asked for. -/
structure ChecksWidth (width n : Nat) : Prop where
  bareOfNat?_eq : bareOfNat? width n = (ofNat? n : Option (WideUInt width)).map val
  bareOfNat_eq : bareOfNat width n = (ofNat n : Except Nat (WideUInt width)).map val
  some_iff : ∀ m, bareOfNat? width n = some m ↔ n < 2 ^ (8 * width) ∧ m = n
  ok_iff : ∀ m, bareOfNat width n = .ok m ↔ n < 2 ^ (8 * width) ∧ m = n
  none_iff : bareOfNat? width n = none ↔ 2 ^ (8 * width) ≤ n
  error_iff : ∀ m, bareOfNat width n = .error m ↔ 2 ^ (8 * width) ≤ n ∧ m = n

theorem checksWidth (width n : Nat) : ChecksWidth width n := by
  by_cases hlt : n < 2 ^ (8 * width)
  · have hsome : bareOfNat? width n = some n := if_pos (bitLength_le_iff.2 hlt)
    have hok : bareOfNat width n = .ok n := if_pos (bitLength_le_iff.2 hlt)
    have hnot := Nat.not_le.2 hlt
    refine ⟨bareOfNat?_eq n, bareOfNat_eq n, ?_, ?_, ?_, ?_⟩
    · simp [hsome, hlt, eq_comm]
    · simp [hok, hlt, eq_comm]
    · simp [hsome, hnot]
    · simp [hok, hnot]
  · have hnone : bareOfNat? width n = none := if_neg fun hle => hlt (bitLength_le_iff.1 hle)
    have herror : bareOfNat width n = .error n := if_neg fun hle => hlt (bitLength_le_iff.1 hle)
    have hle := Nat.not_lt.1 hlt
    refine ⟨bareOfNat?_eq n, bareOfNat_eq n, ?_, ?_, ?_, ?_⟩
    · simp [hnone, hlt]
    · simp [herror, hlt]
    · simp [hnone, hle]
    · simp [herror, hle, eq_comm]

/-- Where a value comes from. What is asked for may depend on the number that is held so far. -/
inductive Origin where
  /-- A number that is not to be wider than the type. -/
  | checked (number : Nat → Nat)
  /-- A number that is handed back if it is wider than the type. -/
  | returned (number : Nat → Nat)
  | word64 (word : Nat → BitVec 64)
  | word128 (word : Nat → BitVec 128)
  | greatest
  | zero
  /-- The bytes of a source. -/
  | read (source : Nat → Source)

namespace Origin

/-- The number that is held next, if there is one. -/
def bare? (width held : Nat) : Origin → Option Nat
  | checked number => bareOfNat? width (number held)
  | returned number => (bareOfNat width (number held)).toOption
  | word64 word => some (word held).toNat
  | word128 word => some (bareOfWord (word held))
  | greatest => some (bareMax width)
  | zero => some 0
  | read source =>
    match bareTake width (source held) with
    | .ok n _ => some n
    | .error _ _ => none

/-- The value that is held next, if there is one. -/
def value? (hwidth : 16 ≤ width) (held : WideUInt width) : Origin → Option (WideUInt width)
  | checked number => ofNat? (number held.val)
  | returned number => (ofNat (number held.val)).toOption
  | word64 word => some (ofBitVec (by omega) (word held.val))
  | word128 word => some (ofBitVec (by omega) (word held.val))
  | greatest => some max
  | zero => some .zero
  | read source =>
    match take (source held.val) with
    | .ok n _ => some n
    | .error _ _ => none

/-- The number that comes from anywhere is that of a value of the type. -/
theorem bare?_eq (hwidth : 16 ≤ width) (held : WideUInt width) (origin : Origin) :
    origin.bare? width held.val = (origin.value? hwidth held).map val := by
  cases origin with
  | checked number => exact bareOfNat?_eq _
  | returned number =>
    rw [bare?, value?, bareOfNat_eq]
    cases (ofNat (number held.val) : Except Nat (WideUInt width)) <;> rfl
  | word64 word => rfl
  | word128 word => exact congrArg some (bareOfWord_eq _ _)
  | greatest => exact congrArg some (bareMax_eq width)
  | zero => rfl
  | read source =>
    rw [bare?, value?, bareTake_eq]
    cases htake : (take : Reader (WideUInt width)) (source held.val) with
    | ok n after => rw [Step.bind_of_ok htake]; rfl
    | error e after => rw [Step.bind_of_error htake]; rfl

end Origin

/-- The number that is held after a chain of origins. Those that give none leave it alone. -/
def bareAfter (width held : Nat) (chain : List Origin) : Nat :=
  chain.foldl (fun held origin => (origin.bare? width held).getD held) held

/-- The value that is held after a chain of origins. -/
def after (hwidth : 16 ≤ width) (held : WideUInt width) (chain : List Origin) : WideUInt width :=
  chain.foldl (fun held origin => (origin.value? hwidth held).getD held) held

/-- Along a chain, the number that is held is that of a value of the type. -/
theorem bareAfter_eq (hwidth : 16 ≤ width) (held : WideUInt width) (chain : List Origin) :
    bareAfter width held.val chain = (after hwidth held chain).val := by
  induction chain generalizing held with
  | nil => rfl
  | cons origin chain ih =>
    have hstep : (origin.bare? width held.val).getD held.val =
        ((origin.value? hwidth held).getD held).val := by
      rw [Origin.bare?_eq hwidth held origin, Option.getD_map]
    rw [bareAfter, List.foldl_cons, hstep]
    exact ih _

theorem resize_of_lt {bytes : List UInt8} (hlt : ofLittleEndian bytes < 256 ^ width) :
    Buffer.resize width bytes = littleEndian width (ofLittleEndian bytes) := by
  have hchecked := Checked.resize_of_lt hlt
  unfold Checked.resize at hchecked
  split at hchecked
  · exact Except.ok.inj hchecked
  · cases hchecked

/-- A number of the width is written in full. -/
theorem bareBytes_of_lt {n : Nat} (hlt : n < 256 ^ width) : bareBytes width n = littleEndian width n := by
  have hspelled := Checked.ofLittleEndian_bytesOfBig n
  rw [bareBytes, resize_of_lt (hspelled.symm ▸ hlt), hspelled]

/-- Below the numbers of the widest machine word, just zeros are added to it. -/
theorem littleEndian_of_word {n : Nat} (hwidth : 16 ≤ width) (hlt : n < 2 ^ 128) :
    littleEndian width n = FixedInt.u128.toBytes n ++ List.replicate (width - 16) 0 := by
  have hword : FixedInt.u128.toBytes n = littleEndian 16 n := by
    have hcard : ((n : Int) % FixedInt.u128.card).toNat = n := by
      change ((n : Int) % (2 ^ 128 : Nat)).toNat = n
      rw [← Int.natCast_emod, Int.toNat_natCast, Nat.mod_eq_of_lt hlt]
    rw [FixedInt.toBytes, hcard]
    rfl
  have hlength : (littleEndian 16 n ++ List.replicate (width - 16) 0).length = width := by
    rw [List.length_append, length_littleEndian, List.length_replicate]
    omega
  have hspelled : ofLittleEndian (littleEndian 16 n ++ List.replicate (width - 16) 0) = n := by
    rw [Checked.ofLittleEndian_append_zeros, ofLittleEndian_littleEndian_of_lt hlt]
  rw [hword, ← littleEndian_ofLittleEndian_of_length hlength, hspelled]

end WideUInt

namespace Definitions

open WideUInt

variable {ι : Type} (defs : Definitions ι Empty) {width n : Nat}

theorem encodeFull_wide {ω : Type} (defs : Definitions ι ω) (scheme : Scheme) (width n : Nat) :
    defs.encodeFull scheme (.wide width) (.int n) = .ok (littleEndian width n).toArray := by
  rw [encodeFull_eq_ok_iff, ← writeWith_write, Schema.writeWith, List.toList_toArray]
  exact Writer.Emits.putSpan _

theorem read_wide (width : Nat) : defs.read (.wide width) = (do
    let n : WideUInt width ← WideUInt.take
    return .int n.val) := by
  rw [← readWith_read, Schema.readWith]

theorem read_wide_of_le {source : Source} (hle : width ≤ source.bytes.length) :
    defs.read (.wide width) source = .ok (.int (ofLittleEndian (source.bytes.take width)))
      (source.withBytes (source.bytes.drop width)) := by
  have htake : (WideUInt.take : Reader (WideUInt width)) source = _ :=
    Step.bind_of_ok (Reader.read_of_le hle)
  rw [read_wide, Step.bind_of_ok htake, val_ofBytes (List.length_take_of_le hle)]
  rfl

theorem read_wide_of_lt {source : Source} (hlt : source.bytes.length < width) :
    defs.read (.wide width) source = .error .notEnoughData source := by
  have htake : (WideUInt.take : Reader (WideUInt width)) source = _ :=
    Step.bind_of_error (Reader.read_of_lt hlt)
  rw [read_wide, Step.bind_of_error htake]

/-- A number is written in so many bytes, nothing of it is lost, and it is read back. -/
structure CodedInFull (defs : Definitions ι Empty) (width n : Nat) : Prop where
  lt : n < 2 ^ (8 * width)
  length_eq : (bareBytes width n).length = width
  spelled : ofLittleEndian (bareBytes width n) = n
  zeros : ∀ scheme, n < 2 ^ 128 → ∃ word, defs.encodeFull scheme (.int .u128) (.int n) = .ok word ∧
    bareBytes width n = word.toList ++ List.replicate (width - 16) 0
  encodeFull_eq : ∀ scheme,
    defs.encodeFull scheme (.wide width) (.int n) = .ok (bareBytes width n).toArray
  read_eq : ∀ (source : Source) rest, source.bytes = bareBytes width n ++ rest →
    defs.read (.wide width) source = .ok (.int n) (source.withBytes rest)

theorem codedInFull (hwidth : 16 ≤ width) (value : WideUInt width) :
    defs.CodedInFull width value.val where
  lt := two_pow_bits width ▸ value.val_lt
  length_eq := by rw [bareBytes_of_lt value.val_lt, length_littleEndian]
  spelled := by
    rw [bareBytes_of_lt value.val_lt, ofLittleEndian_littleEndian_of_lt value.val_lt]
  zeros scheme hlt := by
    refine ⟨(FixedInt.u128.toBytes value.val).toArray, ?_, ?_⟩
    · rw [encodeFull_eq_ok_iff, ← writeWith_write, Schema.writeWith, List.toList_toArray]
      exact Writer.Emits.putSpan _
    · rw [bareBytes_of_lt value.val_lt, littleEndian_of_word hwidth hlt]
  encodeFull_eq scheme := by rw [bareBytes_of_lt value.val_lt, encodeFull_wide]
  read_eq source rest hbytes := by
    rw [bareBytes_of_lt value.val_lt] at hbytes
    have hlength := length_littleEndian width value.val
    have htake : source.bytes.take width = littleEndian width value.val := by
      rw [hbytes, List.take_left' hlength]
    have hdrop : source.bytes.drop width = rest := by rw [hbytes, List.drop_left' hlength]
    have hle : width ≤ source.bytes.length := by
      rw [hbytes, List.length_append, hlength]
      exact Nat.le_add_right _ _
    rw [defs.read_wide_of_le hle, htake, hdrop, ofLittleEndian_littleEndian_of_lt value.val_lt]

/-- Whatever numbers, words and bytes the values of a width are made from, one after the other, the
    number that is held is always written in full and read back. Numbers that do not fit are refused,
    and any bytes, as long as there are enough of them, are those that are written for a number. -/
theorem never_truncated {ι : Type} (defs : Definitions ι Empty) {width : Nat} (hwidth : 16 ≤ width) :
    (∀ chain, bareAfter width 0 chain = (after hwidth .zero chain).val ∧
      defs.CodedInFull width (bareAfter width 0 chain)) ∧
    (∀ n, ChecksWidth width n) ∧
    ∀ source : Source,
      (width ≤ source.bytes.length → ∃ n, defs.CodedInFull width n ∧
        bareBytes width n = source.bytes.take width ∧
        defs.read (.wide width) source = .ok (.int n) (source.withBytes (source.bytes.drop width))) ∧
      (source.bytes.length < width →
        defs.read (.wide width) source = .error .notEnoughData source) := by
  refine ⟨fun chain => ?_, checksWidth width, fun source => ⟨fun hle => ?_, defs.read_wide_of_lt⟩⟩
  · have hafter : bareAfter width 0 chain = (after hwidth .zero chain).val :=
      bareAfter_eq hwidth .zero chain
    rw [hafter]
    exact ⟨rfl, defs.codedInFull hwidth _⟩
  · have hlength : (source.bytes.take width).length = width := List.length_take_of_le hle
    have hlt := ofLittleEndian_lt (source.bytes.take width)
    rw [hlength] at hlt
    refine ⟨_, defs.codedInFull hwidth ⟨_, hlt⟩, ?_, defs.read_wide_of_le hle⟩
    rw [bareBytes_of_lt hlt, littleEndian_ofLittleEndian_of_length hlength]

/-- Adding one to the greatest number of 256 bits is refused, and the number stays. -/
theorem never_truncated_greatest :
    bareAfter 32 0 [.greatest, .checked (· + 1)] = 2 ^ 256 - 1 ∧
      (none : Definitions Empty Empty).CodedInFull 32 (2 ^ 256 - 1) := by
  have hcoded := (never_truncated (none : Definitions Empty Empty) (by decide : 16 ≤ 32)).1
    [.greatest, .checked (· + 1)]
  have hnumber : bareAfter 32 0 [.greatest, .checked (· + 1)] = 2 ^ 256 - 1 := rfl
  rw [hnumber] at hcoded
  exact ⟨hnumber, hcoded.2⟩

end Definitions

end Scale
