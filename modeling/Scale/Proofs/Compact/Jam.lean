import Scale.Proofs.Compact.JamForm
import Scale.Proofs.Consumption
import Scale.Proofs.Emission

namespace Scale.Jam

/-- The bytes that stand for a number. -/
def spelling (n : Nat) : List UInt8 :=
  spell (extraBytes n) n

/-- Digits are written as the number that they spell, in its shortest form. -/
theorem put_eq (digits : Digits) :
    put digits = if capacity ≤ digits.toNat then throw .valueTooBig
      else Writer.putSpan (spelling digits.toNat) := by
  unfold put
  simp only [Digits.toNat_trim]
  by_cases hbig : capacity ≤ digits.toNat
  · rw [if_pos hbig]
    exact if_pos hbig
  · rw [if_neg hbig]
    refine (if_neg hbig).trans ?_
    rw [Writer.putByte_putSpan, spelling, spell, marker, Nat.pow_mul]

variable {source : Source} {first : UInt8} {tail : List UInt8}

theorem take_of_nil (hbytes : source.bytes = []) :
    take source = .error .notEnoughData source :=
  Step.bind_of_error (Reader.takeByte_of_nil hbytes)

/-- After the first byte a source holds the bytes that it announces, or reading ends there. -/
theorem take_of_truncated (hbytes : source.bytes = first :: tail)
    (hshort : tail.length < leadingOnes first) :
    take source = .error .notEnoughData (source.withBytes tail) := by
  rw [take, Step.bind_of_ok (Reader.takeByte_of_cons hbytes)]
  exact Step.bind_of_error (Reader.read_of_lt (by rwa [Source.bytes_withBytes]))

/-- A form that is there is taken off the source, and its number is handed out if the form is
    minimal for it. -/
theorem take_of_form (hbytes : source.bytes = first :: tail)
    (hlong : leadingOnes first ≤ tail.length) :
    let extra := leadingOnes first
    let n := value first (tail.take extra)
    let after := source.withBytes (tail.drop extra)
    take source = if floor extra ≤ n then .ok (Digits.ofNat n) after
      else .error .redundantCompactEncoding after := by
  intro extra n after
  have hroom : extra ≤ (source.withBytes tail).bytes.length := by rwa [Source.bytes_withBytes]
  have hlength : (tail.take extra).length = extra := List.length_take_of_le hlong
  have hvalue : ofLittleEndian (tail.take extra) + 2 ^ (8 * extra) *
      (first.toNat % 2 ^ (7 - extra)) = n := by
    rw [show n = value first (tail.take extra) from rfl, value, hlength, Nat.pow_mul]
  rw [take, Step.bind_of_ok (Reader.takeByte_of_cons hbytes), Step.bind_of_ok (Reader.read_of_le hroom),
    Source.bytes_withBytes, Source.withBytes_withBytes]
  change (if 0 < extra ∧ ofLittleEndian (tail.take extra) + 2 ^ (8 * extra) *
      (first.toNat % 2 ^ (7 - extra)) < 2 ^ (7 * extra) then throw .redundantCompactEncoding
    else pure (Digits.ofNat (ofLittleEndian (tail.take extra) + 2 ^ (8 * extra) *
      (first.toNat % 2 ^ (7 - extra)))) : Reader Digits) after = _
  rw [hvalue]
  have hfloor : (0 < extra ∧ n < 2 ^ (7 * extra)) ↔ ¬ floor extra ≤ n := by
    unfold floor
    by_cases hzero : extra = 0
    · simp [hzero]
    · simp only [hzero, if_false]
      omega
  by_cases hminimal : floor extra ≤ n
  · rw [if_pos hminimal, if_neg fun hredundant => hfloor.1 hredundant hminimal]
    rfl
  · rw [if_neg hminimal, if_pos (hfloor.2 hminimal)]
    rfl

/-- What is written for a number is read as that number. -/
theorem take_of_spelling {n : Nat} {rest : List UInt8} (hlt : n < capacity)
    (hbytes : source.bytes = spelling n ++ rest) :
    take source = .ok (Digits.ofNat n) (source.withBytes rest) := by
  have hextra := extraBytes_le n
  have hlimit := lt_limit_extraBytes hlt
  have hones := leadingOnes_marker hextra (high_lt hextra hlimit)
  have hlength := length_littleEndian (extraBytes n) n
  have hlong : extraBytes n ≤ (littleEndian (extraBytes n) n ++ rest).length := by
    rw [List.length_append, hlength]
    omega
  rw [spelling, spell, List.cons_append] at hbytes
  rw [take_of_form hbytes (by rwa [hones])]
  simp only [hones]
  rw [List.take_left' hlength, List.drop_left' hlength, value_spell hextra hlimit,
    if_pos (floor_extraBytes_le n)]

theorem yields_spelling {n : Nat} (hlt : n < capacity) :
    Reader.Yields .jam take (spelling n) (Digits.ofNat n) :=
  fun _ _ _ hbytes => take_of_spelling hlt hbytes

/-- What is read as a number is what is written for it. -/
theorem bytes_of_take {digits : Digits} {after : Source} (hrun : take source = .ok digits after) :
    ∃ n rest, n < capacity ∧ digits = Digits.ofNat n ∧ source.bytes = spelling n ++ rest ∧
      after = source.withBytes rest := by
  cases hbytes : source.bytes with
  | nil =>
    rw [take_of_nil hbytes] at hrun
    cases hrun
  | cons first tail =>
    by_cases hlong : leadingOnes first ≤ tail.length
    · rw [take_of_form hbytes hlong] at hrun
      split at hrun
      · rename_i hfloor
        obtain ⟨rfl, rfl⟩ := EStateM.Result.ok.inj hrun
        have hlength : (tail.take (leadingOnes first)).length = leadingOnes first :=
          List.length_take_of_le hlong
        have hlimit := value_lt_limit hlength
        have hspell := spell_value hlength
        rw [hlength] at hlimit hspell
        have hcapacity := limit_le_capacity (leadingOnes_le first)
        refine ⟨_, _, Nat.lt_of_lt_of_le hlimit hcapacity, rfl, ?_, rfl⟩
        rw [spelling, ← eq_extraBytes (leadingOnes_le first) hlimit hfloor, hspell,
          List.cons_append, List.take_append_drop]
      · cases hrun
    · rw [take_of_truncated hbytes (Nat.not_le.1 hlong)] at hrun
      cases hrun

end Scale.Jam
