import Scale.Proofs.Compact.Jam
import Scale.Proofs.Reading.Spans
import Scale.Proofs.Safety.Digits
import Scale.Proofs.Safety.Sources

namespace Scale.Checked.Jam

open Scale.Jam (maxExtra leadingOnes extraBytes marker value floor)

/-- Of the given numbers of extra bytes the first one that leaves room for the word, and the most there
    can be if none of them does. -/
def findExtra (n : Nat) : List Nat → Except Fault Nat
  | [] => return maxExtra
  | extra :: others => do
    let bits ← Word.mul 32 7 (extra + 1)
    let high ← Word.shiftRight 64 n bits
    if high = 0 then return extra else findExtra n others

/-- The bits of a word that are left for the first byte. -/
def highBits (n extra : Nat) : Except Fault Nat :=
  if extra = maxExtra then
    return 0
  else do
    let bits ← Word.mul 32 8 extra
    let high ← Word.shiftRight 64 n bits
    Word.narrow 8 high

/-- Writes a word in the shortest form. -/
def putWord (n : Nat) : Writing Unit :=
  if n ≤ 0x7f then do
    let byte ← check (Word.narrow 8 n)
    lift (Writer.putByte (UInt8.ofNat byte))
  else do
    let extra ← check (findExtra n [1, 2, 3, 4, 5, 6, 7])
    let high ← check (highBits n extra)
    let ones ← check (Word.shiftRight 16 0xff00 extra)
    lift (Writer.putByte (UInt8.ofNat (Word.wrap 8 ones ||| high)))
    let low ← check (Buffer.upTo (littleEndian 8 n) extra)
    lift (Writer.putSpan low)

/-- Writes digits in the shortest form. -/
def put (digits : Digits) : Writing Unit := do
  let digits ← check (trim digits)
  match ← check (toNative? digits) with
  | none => throw (.refused .valueTooBig)
  | some n => if 2 ^ 64 ≤ n then throw (.refused .valueTooBig) else putWord n

/-- The word that low bytes and the high bits of the first byte make up. -/
def join (first : UInt8) (extra low : Nat) : Except Fault Nat :=
  if extra = maxExtra then
    return low
  else do
    let ones ← Word.shiftRight 16 0xff (extra + 1)
    let bits ← Word.mul 32 8 extra
    let high ← Word.shiftLeft 64 (first.toNat &&& Word.wrap 8 ones) bits
    return low ||| high

/-- Reads one number. -/
def take : Reading Digits := do
  let first ← takeByte
  let extra := leadingOnes first
  if extra = 0 then
    check (digitsOf first.toNat)
  else do
    let buffer ← check (Buffer.upTo (List.replicate 8 0) extra)
    let bytes ← readInto buffer
    let low := ofLittleEndian (bytes ++ List.replicate (8 - extra) 0)
    let n ← check (join first extra low)
    let floor ← check (do Word.shiftRight 64 n (← Word.mul 32 7 extra))
    if floor = 0 then
      throw (.refused .redundantCompactEncoding)
    else
      check (digitsOf n)

theorem div_two_pow_eq_zero_iff {n k : Nat} : n / 2 ^ k = 0 ↔ n < 2 ^ k :=
  Nat.div_eq_zero_iff_lt (Nat.two_pow_pos k)

theorem findExtra_eq {n : Nat} {extras : List Nat} (hextras : ∀ extra ∈ extras, extra < maxExtra) :
    findExtra n extras =
      .ok ((extras.find? fun extra => n < 2 ^ (7 * (extra + 1))).getD maxExtra) := by
  induction extras with
  | nil => rfl
  | cons extra extras ih =>
    obtain ⟨hextra, hothers⟩ := List.forall_mem_cons.1 hextras
    have hbits : 7 * (extra + 1) < 64 := by
      have hmax : maxExtra = 8 := rfl
      omega
    rw [findExtra, Word.mul_of_lt (Nat.lt_trans hbits (by decide)), ok_bind,
      Word.shiftRight_of_lt hbits, ok_bind, List.find?_cons, ih hothers]
    by_cases hfits : n < 2 ^ (7 * (extra + 1))
    · rw [if_pos (div_two_pow_eq_zero_iff.2 hfits), decide_eq_true hfits]
      rfl
    · rw [if_neg fun hzero => hfits (div_two_pow_eq_zero_iff.1 hzero), decide_eq_false hfits]

/-- A word that takes more than a byte is not looked for among those that take one. -/
theorem findExtra_extraBytes {n : Nat} (hlarge : 0x7f < n) :
    findExtra n [1, 2, 3, 4, 5, 6, 7] = .ok (extraBytes n) := by
  have hnot : ¬ n < 2 ^ (7 * (0 + 1)) := Nat.not_lt.2 hlarge
  have hrange : List.range maxExtra = 0 :: [1, 2, 3, 4, 5, 6, 7] := rfl
  have hskip : (0 :: [1, 2, 3, 4, 5, 6, 7]).find? (fun extra => n < 2 ^ (7 * (extra + 1))) =
      [1, 2, 3, 4, 5, 6, 7].find? fun extra => n < 2 ^ (7 * (extra + 1)) :=
    List.find?_cons_of_neg (by simpa using hnot)
  rw [findExtra_eq (by decide), extraBytes, hrange, hskip]

theorem highBits_eq {n : Nat} (hlt : n < 2 ^ 64) :
    highBits n (extraBytes n) = .ok (n / 2 ^ (8 * extraBytes n)) := by
  have hle := Scale.Jam.extraBytes_le n
  unfold highBits
  split
  · next hall =>
    rw [hall]
    exact congrArg Except.ok (Nat.div_eq_of_lt hlt).symm
  · next hfew =>
    have hbits : 8 * extraBytes n < 64 := by
      have hmax : maxExtra = 8 := rfl
      omega
    have hhigh : n / 2 ^ (8 * extraBytes n) < 2 ^ 8 := by
      have hlow := Scale.Jam.high_lt hle (Scale.Jam.lt_limit_extraBytes hlt)
      rw [Nat.pow_mul]
      exact Nat.lt_of_lt_of_le hlow (Nat.pow_le_pow_right (by decide) (by omega))
    rw [Word.mul_of_lt (Nat.lt_trans hbits (by decide)), ok_bind, Word.shiftRight_of_lt hbits,
      ok_bind, Word.narrow_of_lt hhigh]

/-- The ones of the first byte stand above the high bits. -/
theorem wrap_or {extra high : Nat} (hle : extra ≤ maxExtra) (hhigh : high < 2 ^ (7 - extra)) :
    Word.wrap 8 (0xff00 / 2 ^ extra) ||| high = marker extra + high := by
  have hall : ∀ (extra : Fin 9) (high : Fin 128), high.val < 2 ^ (7 - extra.val) →
      Word.wrap 8 (0xff00 / 2 ^ extra.val) ||| high = marker extra + high := by decide +kernel
  have hsmall : 2 ^ (7 - extra) ≤ 2 ^ 7 := Nat.pow_le_pow_right (by decide) (by omega)
  exact hall ⟨extra, Nat.lt_succ_of_le hle⟩ ⟨high, Nat.lt_of_lt_of_le hhigh hsmall⟩ hhigh

theorem extraBytes_of_le {n : Nat} (hsmall : n ≤ 0x7f) : extraBytes n = 0 :=
  (Scale.Jam.eq_extraBytes (Nat.zero_le _) (Nat.lt_succ_of_le hsmall) (Nat.zero_le n)).symm

/-- Words of up to 64 bits are written in the form that leaves room for them. -/
theorem putWord_eq {n : Nat} (hlt : n < 2 ^ 64) :
    putWord n = lift (do
      Writer.putByte (UInt8.ofNat (marker (extraBytes n) + n / 2 ^ (8 * extraBytes n)))
      Writer.putSpan (littleEndian (extraBytes n) n)) := by
  unfold putWord
  split
  · next hsmall =>
    rw [extraBytes_of_le hsmall, Word.narrow_of_lt (by omega), check_ok, pure_bind,
      Writer.putByte_putSpan]
    have hmarker : marker 0 + n / 2 ^ (8 * 0) = n := by
      rw [show marker 0 = 0 from rfl, Nat.mul_zero, Nat.pow_zero, Nat.div_one, Nat.zero_add]
    rw [hmarker]
    refine congrArg lift (funext fun sink => ?_)
    exact congrArg (EStateM.Result.ok ()) (Sink.push_eq_append _ sink)
  · next hlarge =>
    have hle := Scale.Jam.extraBytes_le n
    have hmax : maxExtra = 8 := rfl
    have hhigh : n / 2 ^ (8 * extraBytes n) < 2 ^ (7 - extraBytes n) := by
      have hfits := Scale.Jam.high_lt hle (Scale.Jam.lt_limit_extraBytes hlt)
      rwa [← Nat.pow_mul (a := 2) (m := 8)] at hfits
    rw [findExtra_extraBytes (Nat.not_le.1 hlarge), check_ok, pure_bind, highBits_eq hlt, check_ok,
      pure_bind, Word.shiftRight_of_lt (by omega), check_ok, pure_bind, wrap_or hle hhigh,
      Buffer.upTo_of_le (by rw [length_littleEndian]; omega), take_littleEndian (by omega), lift_bind]
    rfl

theorem put_eq (digits : Digits) : put digits = lift (Scale.Jam.put digits) := by
  rw [put, trim_eq, check_ok, pure_bind, toNative?_eq, check_ok, pure_bind, Scale.Jam.put]
  dsimp only
  have htrimmed : Digits.ofNat digits.trim.toNat = digits.trim :=
    Digits.ofNat_toNat (Digits.trimmed_trim digits)
  generalize digits.trim = digits at htrimmed ⊢
  unfold Digits.toNative?
  by_cases hnative : digits.length ≤ Digits.maxNative
  · rw [if_pos hnative]
    dsimp only
    split
    · rfl
    · next hword => exact putWord_eq (Nat.not_le.1 hword)
  · -- more than sixteen digits spell a number beyond 128 bits
    have hlarge : 256 ^ Digits.maxNative ≤ digits.toNat := by
      rw [← htrimmed, Digits.length_ofNat] at hnative
      exact Digits.lt_count_iff.1 (Nat.not_le.1 hnative)
    rw [if_neg hnative, if_pos (Nat.le_trans (by decide) hlarge)]
    rfl

/-- The mask of the bits below the marker and the zero after it. -/
theorem and_wrap (byte : UInt8) {extra : Nat} (hlt : extra < maxExtra) :
    byte.toNat &&& Word.wrap 8 (0xff / 2 ^ (extra + 1)) = byte.toNat % 2 ^ (7 - extra) := by
  have hmask : ∀ extra : Fin 8, Word.wrap 8 (0xff / 2 ^ (extra.val + 1)) = 2 ^ (7 - extra.val) - 1 := by
    decide
  rw [hmask ⟨extra, hlt⟩, Nat.and_two_pow_sub_one_eq_mod]

theorem join_eq {first : UInt8} {low : List UInt8} (hlength : low.length = leadingOnes first) :
    join first low.length (ofLittleEndian low) = .ok (value first low) := by
  have hle : low.length ≤ maxExtra := hlength ▸ Scale.Jam.leadingOnes_le first
  unfold join
  split
  · next hall =>
    rw [value, hall, show 7 - maxExtra = 0 from rfl, Nat.pow_zero, Nat.mod_one, Nat.mul_zero]
    rfl
  · next hfew =>
    have hmax : maxExtra = 8 := rfl
    have hlt : low.length < maxExtra := by omega
    have hlow : ofLittleEndian low < 2 ^ (8 * low.length) := by
      rw [Nat.pow_mul]
      exact ofLittleEndian_lt low
    have hvalue := Nat.lt_of_lt_of_le (Scale.Jam.value_lt_limit hlength)
      (Scale.Jam.limit_le_capacity hle)
    have hjoined : value first low =
        2 ^ (8 * low.length) * (first.toNat % 2 ^ (7 - low.length)) + ofLittleEndian low := by
      rw [value, Nat.pow_mul, Nat.add_comm]
    have hshift : first.toNat % 2 ^ (7 - low.length) * 2 ^ (8 * low.length) < 2 ^ 64 := by
      rw [Nat.mul_comm]
      exact Nat.lt_of_le_of_lt (Nat.le_add_right _ _) (hjoined ▸ hvalue)
    rw [Word.shiftRight_of_lt (by omega), ok_bind, Word.mul_of_lt (by omega), ok_bind,
      and_wrap first hlt, Word.shiftLeft_of_lt (by omega) hshift, ok_bind, Nat.or_comm,
      Word.shifted_or hlow, hjoined]
    rfl

theorem read_zero : Reader.read 0 = pure [] := by
  funext source
  rw [Reader.read_of_le (Nat.zero_le _), List.take_zero, List.drop_zero, Source.withBytes_bytes]
  rfl

theorem take_eq : take = lift Scale.Jam.take := by
  rw [take, takeByte_eq]
  refine lift_bind_congr fun {_ first _} _ => ?_
  have hle := Scale.Jam.leadingOnes_le first
  have hmax : maxExtra = 8 := rfl
  by_cases hzero : leadingOnes first = 0
  -- A first byte without leading ones is the number, and no bytes are read after it.
  · have hfirst : ofLittleEndian [] + 2 ^ (8 * 0) * (first.toNat % 2 ^ (7 - 0)) = first.toNat := by
      have hones := Scale.Jam.marker_leadingOnes first
      rw [hzero, show marker 0 = 0 from rfl, Nat.zero_add] at hones
      rw [hones, Nat.mul_zero, Nat.pow_zero, Nat.one_mul]
      exact Nat.zero_add _
    simp only [hzero, if_true, read_zero, pure_bind, hfirst, Nat.lt_irrefl, false_and, if_false]
    have hbyte := first.toNat_lt
    rw [digitsOf_eq (by omega)]
    rfl
  · simp only [hzero, if_false]
    have hbuffer : ((List.replicate 8 (0 : UInt8)).take (leadingOnes first)).length =
        leadingOnes first := by
      rw [List.length_take, List.length_replicate]
      omega
    rw [Buffer.upTo_of_le (by rw [List.length_replicate]; omega), check_ok, pure_bind, readInto_eq,
      hbuffer]
    refine lift_bind_congr fun {_ low _} hread => ?_
    have hlength : low.length = leadingOnes first := Reader.length_of_read hread
    have hvalue : ofLittleEndian low + 2 ^ (8 * leadingOnes first) *
        (first.toNat % 2 ^ (7 - leadingOnes first)) = value first low := by
      rw [value, hlength, Nat.pow_mul]
    have hword : value first low < 2 ^ 64 :=
      Nat.lt_of_lt_of_le (Scale.Jam.value_lt_limit hlength)
        (Scale.Jam.limit_le_capacity (hlength ▸ hle))
    rw [ofLittleEndian_append_zeros, ← hlength, join_eq hlength, check_ok, pure_bind,
      Word.mul_of_lt (by omega), ok_bind, Word.shiftRight_of_lt (by omega), check_ok, pure_bind,
      hlength, hvalue, digitsOf_eq (by omega)]
    by_cases hredundant : value first low < 2 ^ (7 * leadingOnes first)
    · rw [if_pos (div_two_pow_eq_zero_iff.2 hredundant),
        if_pos ⟨Nat.pos_of_ne_zero hzero, hredundant⟩]
      rfl
    · rw [if_neg fun hfloor => hredundant (div_two_pow_eq_zero_iff.1 hfloor),
        if_neg fun hboth => hredundant hboth.2]
      rfl

end Scale.Checked.Jam
