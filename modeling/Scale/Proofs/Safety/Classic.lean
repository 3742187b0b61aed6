import Scale.Proofs.Compact.Classic
import Scale.Proofs.Reading.Spans
import Scale.Proofs.Safety.Digits
import Scale.Proofs.Safety.Sources

namespace Scale.Checked.Classic

open Scale.Classic (singleLimit doubleLimit quadrupleLimit minLong maxLong)

/-- Writes digits of which there are too many for the shorter forms. -/
def putLong (digits : Digits) : Writing Unit :=
  if maxLong < digits.length then
    throw (.refused .valueTooBig)
  else do
    let extra ← check (Word.sub digits.length minLong)
    let extra ← check (Word.narrow 8 extra)
    let header ← check (Word.shiftLeft 8 extra 2)
    lift (Writer.putByte (UInt8.ofNat (header ||| 3)))
    lift (Writer.putSpan digits)

/-- Writes digits in the shortest form. -/
def put (digits : Digits) : Writing Unit := do
  let digits ← check (trim digits)
  if digits.length ≤ minLong then
    let buffer ← check (Buffer.fillUpTo (List.replicate 4 0) digits.length digits)
    let n := ofLittleEndian buffer
    if n < singleLimit then
      let shifted ← check (Word.shiftLeft 32 n 2)
      let low ← check (Word.narrow 8 shifted)
      lift (Writer.putByte (UInt8.ofNat (low ||| 0)))
    else if n < doubleLimit then
      let shifted ← check (Word.shiftLeft 32 n 2)
      let low ← check (Word.narrow 16 shifted)
      lift (Writer.putSpan (littleEndian 2 (low ||| 1)))
    else if n < quadrupleLimit then
      let shifted ← check (Word.shiftLeft 32 n 2)
      lift (Writer.putSpan (littleEndian 4 (shifted ||| 2)))
    else
      putLong digits
  else
    putLong digits

/-- Reads the digits of a long form of known length. -/
def takeLong (length : Nat) : Reading Digits := do
  lift (Reader.need length)
  let digits ← readInto (List.replicate length 0)
  let top ← check (do Buffer.get digits (← Word.sub length 1))
  if top = 0 then
    throw (.refused .redundantCompactEncoding)
  else if length = minLong then
    let front ← check ([0, 1, 2, 3].mapM (Buffer.get digits))
    if ofLittleEndian front < quadrupleLimit then
      throw (.refused .redundantCompactEncoding)
    else
      return digits
  else
    return digits

/-- Hands out the digits of a number, unless a shorter form could hold it. -/
def accept (limit n : Nat) : Reading Digits :=
  if n < limit then throw (.refused .redundantCompactEncoding) else check (digitsOf n)

/-- Reads one number. -/
def take : Reading Digits := do
  let first ← takeByte
  match first.toNat &&& 3 with
  | 0 => check (do digitsOf (← Word.shiftRight 8 first.toNat 2))
  | 1 =>
    let second ← takeByte
    accept singleLimit (← check (Word.shiftRight 16 (ofLittleEndian [first, second]) 2))
  | 2 =>
    let rest ← readInto (List.replicate 3 0)
    let rest ← check ([0, 1, 2].mapM (Buffer.get rest))
    accept doubleLimit (← check (Word.shiftRight 32 (ofLittleEndian (first :: rest)) 2))
  | _ =>
    let extra ← check (Word.shiftRight 8 first.toNat 2)
    takeLong (← check (Word.add 64 extra minLong))

theorem putLong_eq {digits : Digits} (hmin : minLong ≤ digits.length) :
    putLong digits = lift (if maxLong < digits.length then throw .valueTooBig
      else do
        Writer.putByte (UInt8.ofNat (4 * (digits.length - minLong) + 3))
        Writer.putSpan digits) := by
  unfold putLong
  split
  · rfl
  · next hmax =>
    have hextra : digits.length - minLong < 64 := by
      have hlong : maxLong = minLong + 63 := rfl
      omega
    have hheader : (digits.length - minLong) * 2 ^ 2 < 2 ^ 8 := by omega
    rw [Word.sub_of_le hmin, check_ok, pure_bind, Word.narrow_of_lt (by omega), check_ok, pure_bind,
      Word.shiftLeft_of_lt (by decide) hheader, check_ok, pure_bind, Word.shifted_or (by decide),
      lift_bind]
    rfl

/-- Numbers that no shorter form holds have the digits of the long form. -/
theorem minLong_le_length {digits : Digits} (htrimmed : Digits.ofNat digits.toNat = digits)
    (hlarge : quadrupleLimit ≤ digits.toNat) : minLong ≤ digits.length := by
  rw [← htrimmed, Digits.length_ofNat]
  exact Digits.lt_count_iff.2 (Nat.le_trans (by decide : 256 ^ 3 ≤ quadrupleLimit) hlarge)

theorem put_eq (digits : Digits) : put digits = lift (Scale.Classic.put digits) := by
  have htrimmed : Digits.ofNat digits.trim.toNat = digits.trim :=
    Digits.ofNat_toNat (Digits.trimmed_trim digits)
  rw [put, trim_eq, check_ok, pure_bind, Scale.Classic.put]
  dsimp only
  generalize digits.trim = digits at htrimmed ⊢
  -- digits that are too many for four bytes are not looked at as a word at all
  by_cases hshort : digits.length ≤ minLong
  · rw [if_pos hshort, Buffer.fillUpTo_of_le rfl (by rwa [List.length_replicate]), check_ok, pure_bind,
      List.drop_replicate, ofLittleEndian_append_zeros]
    have hvalue : ofLittleEndian digits = digits.toNat := rfl
    simp only [hvalue]
    by_cases hquadruple : digits.toNat < quadrupleLimit
    · have hlimit : quadrupleLimit * 2 ^ 2 = 2 ^ 32 := rfl
      have hshift : Word.shiftLeft 32 digits.toNat 2 = .ok (digits.toNat * 2 ^ 2) :=
        Word.shiftLeft_of_lt (by decide) (by omega)
      rw [hshift, check_ok, pure_bind, pure_bind, pure_bind]
      split
      · next hsingle =>
        have hlow : digits.toNat * 2 ^ 2 < 2 ^ 8 := by
          have hlimit : singleLimit * 2 ^ 2 = 2 ^ 8 := rfl
          omega
        rw [Word.narrow_of_lt hlow, check_ok, pure_bind, Word.shifted_or (by decide)]
        rfl
      · split
        · next hdouble =>
          have hlow : digits.toNat * 2 ^ 2 < 2 ^ 16 := by
            have hlimit : doubleLimit * 2 ^ 2 = 2 ^ 16 := rfl
            omega
          rw [Word.narrow_of_lt hlow, check_ok, pure_bind, Word.shifted_or (by decide)]
          rfl
        · rw [Word.shifted_or (by decide)]
          rfl
    · have hlarge := Nat.not_lt.1 hquadruple
      have hsingle : ¬ digits.toNat < singleLimit := Nat.not_lt.2 (Nat.le_trans (by decide) hlarge)
      have hdouble : ¬ digits.toNat < doubleLimit := Nat.not_lt.2 (Nat.le_trans (by decide) hlarge)
      rw [if_neg hsingle, if_neg hdouble, if_neg hquadruple, if_neg hsingle, if_neg hdouble,
        if_neg hquadruple, putLong_eq (minLong_le_length htrimmed hlarge)]
  · have hlarge : 256 ^ 4 ≤ digits.toNat := by
      rw [← htrimmed, Digits.length_ofNat] at hshort
      exact Digits.lt_count_iff.1 (Nat.not_le.1 hshort)
    have hsingle : ¬ digits.toNat < singleLimit := Nat.not_lt.2 (Nat.le_trans (by decide) hlarge)
    have hdouble : ¬ digits.toNat < doubleLimit := Nat.not_lt.2 (Nat.le_trans (by decide) hlarge)
    have hquadruple : ¬ digits.toNat < quadrupleLimit :=
      Nat.not_lt.2 (Nat.le_trans (by decide) hlarge)
    rw [if_neg hshort, putLong_eq (Nat.le_of_lt (Nat.not_le.1 hshort)), if_neg hsingle, if_neg hdouble,
      if_neg hquadruple]

theorem takeLong_eq {length : Nat} (hmin : minLong ≤ length) :
    takeLong length = lift (Scale.Classic.takeLong length) := by
  rw [Scale.Classic.takeLong_eq, takeLong, lift_bind, readInto_eq, List.length_replicate]
  refine congrArg (lift (Reader.need length) >>= ·) (funext fun _ => lift_bind_congr ?_)
  intro source digits after hread
  have hlength : digits.length = length := Reader.length_of_read hread
  have hlast : length - 1 < digits.length := by
    have hfour : minLong = 4 := rfl
    omega
  -- the long form has at least four digits, so that the last one and the first four are there
  have htop : digits.getLast? = some 0 ↔ digits[length - 1] = 0 := by
    rw [List.getLast?_eq_getElem?, hlength, List.getElem?_eq_getElem hlast, Option.some.injEq]
  rw [Word.sub_of_le (Nat.le_trans (by decide) hmin), ok_bind,
    Buffer.get_of_getElem? (List.getElem?_eq_getElem hlast), check_ok, pure_bind]
  by_cases hzero : digits[length - 1] = 0
  · rw [if_pos hzero, if_pos (.inl (htop.2 hzero))]
    rfl
  · rw [if_neg hzero]
    by_cases hfour : length = minLong
    · have hfront : [0, 1, 2, 3].mapM (Buffer.get digits) = .ok digits :=
        Buffer.mapM_get_all (hlength.trans hfour)
      rw [if_pos hfour, hfront, check_ok, pure_bind]
      by_cases hsmall : ofLittleEndian digits < quadrupleLimit
      · rw [if_pos hsmall, if_pos (.inr ⟨hfour, hsmall⟩)]
        rfl
      · rw [if_neg hsmall, if_neg (not_or.2 ⟨mt htop.1 hzero, fun hboth => hsmall hboth.2⟩)]
        rfl
    · rw [if_neg hfour, if_neg (not_or.2 ⟨mt htop.1 hzero, fun hboth => hfour hboth.1⟩)]
      rfl

theorem accept_eq {limit n : Nat} (hword : n < 2 ^ 128) :
    accept limit n = lift (Scale.Classic.accept limit n) := by
  unfold accept Scale.Classic.accept
  rw [digitsOf_eq hword, lift_ite]
  rfl

theorem take_eq : take = lift Scale.Classic.take := by
  rw [take, takeByte_eq]
  refine lift_bind_congr fun {_ first _} _ => ?_
  have hmask : first.toNat &&& 3 = first.toNat % 4 := Nat.and_two_pow_sub_one_eq_mod _ 2
  have hfirst := first.toNat_lt
  rw [hmask]
  rcases Scale.Classic.Form.mode_cases first with hmode | hmode | hmode | hmode
  all_goals simp only [hmode]
  · rw [Word.shiftRight_of_lt (by decide), ok_bind, digitsOf_eq (by omega)]
    rfl
  · refine lift_bind_congr fun {_ second _} _ => ?_
    have hbound : ofLittleEndian [first, second] < 256 ^ 2 := ofLittleEndian_lt [first, second]
    rw [Word.shiftRight_of_lt (by decide), check_ok, pure_bind, accept_eq (by omega)]
    rfl
  · rw [readInto_eq]
    refine lift_bind_congr fun {_ rest _} hread => ?_
    have hlength : rest.length = 3 := Reader.length_of_read hread
    have hrest : [0, 1, 2].mapM (Buffer.get rest) = .ok rest := Buffer.mapM_get_all hlength
    have hbound := ofLittleEndian_lt (first :: rest)
    rw [List.length_cons, hlength] at hbound
    rw [hrest, check_ok, pure_bind, Word.shiftRight_of_lt (by decide), check_ok, pure_bind,
      accept_eq (by omega)]
    rfl
  · have hfour : minLong = 4 := rfl
    rw [Word.shiftRight_of_lt (by decide), check_ok, pure_bind, Word.add_of_lt (by omega), check_ok,
      pure_bind, takeLong_eq (by omega)]
    rfl

end Scale.Checked.Classic
