import Scale.Proofs.Compact.ClassicForm
import Scale.Proofs.Consumption
import Scale.Proofs.Emission

namespace Scale.Classic

/-- The bytes that stand for a number. -/
def spelling (n : Nat) : List UInt8 :=
  (Form.shortest n).spell n

/-- Digits are written as the number that they spell, in its shortest form. -/
theorem put_eq (digits : Digits) :
    put digits = if capacity ≤ digits.toNat then throw .valueTooBig
      else Writer.putSpan (spelling digits.toNat) := by
  rw [put, Digits.trim_eq_ofNat, Digits.toNat_ofNat, Digits.length_ofNat]
  generalize digits.toNat = n
  have hroom : quadrupleLimit ≤ capacity := by
    rw [capacity_eq]
    exact Nat.le_trans (Form.quadruple_limit_le_pow (by decide : 4 ≤ maxLong)) (Nat.le_refl _)
  by_cases hlow : quadrupleLimit ≤ n
  · have hsingle : ¬ n < singleLimit := Nat.not_lt.2 (Nat.le_trans (by decide) hlow)
    have hdouble : ¬ n < doubleLimit := Nat.not_lt.2 (Nat.le_trans (by decide) hlow)
    rw [if_neg hsingle, if_neg hdouble, if_neg (Nat.not_lt.2 hlow)]
    by_cases hhigh : capacity ≤ n
    · rw [if_pos hhigh, if_pos (Digits.lt_count_iff.2 (capacity_eq ▸ hhigh))]
    · have hlt := Nat.not_le.1 hhigh
      obtain ⟨extra, hshortest, hcount⟩ := Form.shortest_eq_long hlow hlt
      have hextra : Digits.count n - minLong = extra.val := by omega
      rw [if_neg hhigh, if_neg (Nat.not_lt.2 (Form.count_bounds hlow hlt).2), hextra,
        Writer.putByte_putSpan, spelling, hshortest, Form.spell, hcount, Digits.ofNat]
  · have hlt := Nat.not_le.1 hlow
    rw [if_neg (Nat.not_le.2 (Nat.lt_of_lt_of_le hlt hroom)), spelling, Form.shortest]
    split
    · exact funext fun sink => congrArg (EStateM.Result.ok ()) (Sink.push_eq_append _ sink)
    · split
      · rfl
      · rfl

theorem takeLong_eq (length : Nat) :
    takeLong length = do
      Reader.need length
      let digits ← Reader.read length
      if digits.getLast? = some 0 ∨ length = minLong ∧ Digits.toNat digits < quadrupleLimit then
        throw .redundantCompactEncoding
      else
        return digits := by
  unfold takeLong Reader.need
  simp only [bind_assoc]
  congr 1
  funext enough
  cases enough with
  | false => rfl
  | true =>
    simp only [Bool.not_true, Bool.false_eq_true, if_false, pure_bind]
    congr 1
    funext digits
    by_cases htop : digits.getLast? = some 0
    · simp [htop]
    · by_cases hsmall : length = minLong ∧ digits.toNat < quadrupleLimit
      · simp only [htop, hsmall, false_or, and_self, if_false, if_true]
        rfl
      · simp [htop, hsmall]

theorem take_of_nil {source : Source} (hbytes : source.bytes = []) :
    take source = .error .notEnoughData source :=
  Step.bind_of_error (Reader.takeByte_of_nil hbytes)

variable {source : Source} {first : UInt8} {tail : List UInt8}

/-- After the first byte a source holds the rest of the announced form, or reading ends there. -/
theorem take_of_truncated (hbytes : source.bytes = first :: tail)
    (hshort : source.bytes.length < (Form.ofHeader first).length) :
    take source = .error .notEnoughData (source.withBytes tail) := by
  have hlength : source.bytes.length = tail.length + 1 := by rw [hbytes, List.length_cons]
  rw [take, Step.bind_of_ok (Reader.takeByte_of_cons hbytes)]
  unfold Form.ofHeader at hshort
  rcases Form.mode_cases first with hmode | hmode | hmode | hmode
  all_goals simp only [hmode, Form.length] at hshort ⊢
  · omega
  · have htail : (source.withBytes tail).bytes = [] := by
      rw [Source.bytes_withBytes, ← List.length_eq_zero_iff]
      omega
    exact Step.bind_of_error (Reader.takeByte_of_nil htail)
  · exact Step.bind_of_error (Reader.read_of_lt (by rw [Source.bytes_withBytes]; omega))
  · rw [takeLong_eq]
    exact Step.bind_of_error (Reader.need_of_lt (by rw [Source.bytes_withBytes]; omega))

theorem accept_eq (limit n : Nat) (source : Source) :
    accept limit n source = if limit ≤ n then .ok (Digits.ofNat n) source
      else .error .redundantCompactEncoding source := by
  unfold accept
  by_cases hlimit : n < limit
  · rw [if_pos hlimit, if_neg (Nat.not_le.2 hlimit)]
    rfl
  · rw [if_neg hlimit, if_pos (Nat.not_lt.1 hlimit)]
    rfl

/-- Long digits are redundant just when a shorter form holds their number, and else they are
    trimmed. -/
theorem takeLong_of_le {extra : Fin 64} (hle : extra + minLong ≤ source.bytes.length) :
    let digits := source.bytes.take (extra + minLong)
    let after := source.withBytes (source.bytes.drop (extra + minLong))
    takeLong (extra + minLong) source =
      if (Form.long extra).floor ≤ ofLittleEndian digits then
        .ok (Digits.ofNat (ofLittleEndian digits)) after
      else .error .redundantCompactEncoding after := by
  intro digits after
  have hlength : digits.length = extra.val + 3 + 1 := by
    simp only [digits, List.length_take, minLong] at hle ⊢
    omega
  have htop := getLast?_eq_zero_iff hlength
  rw [takeLong_eq, Step.bind_of_ok (Reader.need_of_le hle), Step.bind_of_ok (Reader.read_of_le hle)]
  change (if digits.getLast? = some 0 ∨ extra.val + minLong = minLong ∧
    ofLittleEndian digits < quadrupleLimit then throw .redundantCompactEncoding else pure digits :
      Reader Digits) after = _
  have hfloor : (digits.getLast? = some 0 ∨ extra.val + minLong = minLong ∧
      ofLittleEndian digits < quadrupleLimit) ↔ ¬ (Form.long extra).floor ≤ ofLittleEndian digits := by
    rw [htop, Form.floor]
    by_cases hzero : extra.val = 0
    · have hsmall : 256 ^ 3 ≤ quadrupleLimit := by decide
      simp only [hzero, Nat.zero_add, if_true, true_and, quadrupleLimit] at hsmall ⊢
      omega
    · have hmore : ¬ extra.val + minLong = minLong := by omega
      simp only [hzero, hmore, false_and, or_false, if_false, Nat.not_le]
  by_cases hminimal : (Form.long extra).floor ≤ ofLittleEndian digits
  · have htrimmed : Digits.Trimmed digits := fun hzero => hfloor.1 (Or.inl hzero) hminimal
    rw [if_neg (fun h => hfloor.1 h hminimal), if_pos hminimal]
    exact congrArg (EStateM.Result.ok · after) (Digits.ofNat_toNat htrimmed).symm
  · rw [if_pos (hfloor.2 hminimal), if_neg hminimal]
    rfl

/-- A form that is there is taken off the source, and its number is handed out if the form is
    minimal for it. -/
theorem take_of_form (hbytes : source.bytes = first :: tail)
    (hlong : (Form.ofHeader first).length ≤ source.bytes.length) :
    let form := Form.ofHeader first
    let n := form.value (source.bytes.take form.length)
    let after := source.withBytes (source.bytes.drop form.length)
    take source = if form.floor ≤ n then .ok (Digits.ofNat n) after
      else .error .redundantCompactEncoding after := by
  have hlength : source.bytes.length = tail.length + 1 := by rw [hbytes, List.length_cons]
  rw [take, Step.bind_of_ok (Reader.takeByte_of_cons hbytes)]
  unfold Form.ofHeader at hlong ⊢
  -- The two low bits of the first byte select one of the four ways to go on.
  rcases Form.mode_cases first with hmode | hmode | hmode | hmode
  all_goals simp only [hmode, Form.length, hbytes] at hlong ⊢
  · simp only [Form.floor, Nat.zero_le, if_true, Form.value, List.take_succ_cons, List.take_zero,
      ofLittleEndian, Nat.mul_zero, Nat.add_zero, List.drop_succ_cons, List.drop_zero]
    rfl
  · cases tail with
    | nil =>
      simp at hlong
    | cons second rest =>
      rw [Step.bind_of_ok (Reader.takeByte_of_cons (Source.bytes_withBytes _ _)), accept_eq,
        Source.withBytes_withBytes]
      rfl
  · have hroom : 3 ≤ (source.withBytes tail).bytes.length := by
      simp only [Source.bytes_withBytes, List.length_cons] at hlong ⊢
      omega
    rw [Step.bind_of_ok (Reader.read_of_le hroom), accept_eq, Source.withBytes_withBytes,
      Source.bytes_withBytes]
    rfl
  · have hlt := first.toNat_lt
    have hroom : (⟨first.toNat / 4, by omega⟩ : Fin 64) + minLong ≤
        (source.withBytes tail).bytes.length := by
      simp only [Source.bytes_withBytes, List.length_cons] at hlong ⊢
      omega
    have hrun := takeLong_of_le hroom
    simp only [Source.bytes_withBytes, Source.withBytes_withBytes] at hrun
    rw [hrun, Nat.add_comm 1, List.take_succ_cons, List.drop_succ_cons]
    rfl

end Scale.Classic
