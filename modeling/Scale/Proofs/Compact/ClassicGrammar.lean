import Scale.Proofs.Compact.Classic

namespace Scale.Classic

variable {source : Source} {digits : Digits}

/-- A source begins with the whole of the form that its first byte announces, unless it ends
    before. -/
theorem complete_or_truncated (source : Source) :
    (∃ first tail, source.bytes = first :: tail ∧
      (Form.ofHeader first).length ≤ source.bytes.length) ∨
    source.bytes = [] ∨ ∃ first tail, source.bytes = first :: tail ∧
      source.bytes.length < (Form.ofHeader first).length := by
  cases hbytes : source.bytes with
  | nil => exact Or.inr (Or.inl rfl)
  | cons first tail =>
    by_cases hlong : (Form.ofHeader first).length ≤ (first :: tail).length
    · exact Or.inl ⟨first, tail, rfl, hlong⟩
    · exact Or.inr (Or.inr ⟨first, tail, rfl, Nat.not_le.1 hlong⟩)

theorem take_eq_notEnoughData_iff :
    (∃ rest, take source = .error .notEnoughData rest) ↔
      source.bytes = [] ∨ ∃ first tail, source.bytes = first :: tail ∧
        source.bytes.length < (Form.ofHeader first).length := by
  constructor
  · rintro ⟨rest, hrun⟩
    obtain ⟨first, tail, hbytes, hlong⟩ | hshort := complete_or_truncated source
    · rw [take_of_form hbytes hlong] at hrun
      split at hrun <;> cases hrun
    · exact hshort
  · rintro (hnil | ⟨first, tail, hbytes, hshort⟩)
    · exact ⟨source, take_of_nil hnil⟩
    · exact ⟨_, take_of_truncated hbytes hshort⟩

/-- Every number below `2 ^ 536` is written in the shortest form that can hold it, and every form
    that is there is read, provided that no shorter one could have held its number. -/
theorem put_shortest_and_take_minimal :
    (∀ (digits : Digits) (sink : Sink),
      (capacity ≤ digits.toNat → put digits sink = .error .valueTooBig sink) ∧
      (digits.toNat < capacity → ∃ form : Form,
        form.Holds digits.toNat ∧ form.Minimal digits.toNat ∧
          put digits sink = .ok () (sink.append (form.spell digits.toNat)))) ∧
    ∀ source : Source,
      ((∃ rest, take source = .error .notEnoughData rest) ↔
        source.bytes = [] ∨ ∃ first tail, source.bytes = first :: tail ∧
          source.bytes.length < (Form.ofHeader first).length) ∧
      ∀ first tail, source.bytes = first :: tail →
        (Form.ofHeader first).length ≤ source.bytes.length →
          let form := Form.ofHeader first
          let n := form.value (source.bytes.take form.length)
          let after := source.withBytes (source.bytes.drop form.length)
          (take source = .ok (Digits.ofNat n) after ↔ form.Minimal n) ∧
          (¬ form.Minimal n → take source = .error .redundantCompactEncoding after) := by
  refine ⟨fun digits sink => ⟨?_, ?_⟩, fun source => ⟨take_eq_notEnoughData_iff, ?_⟩⟩
  · intro hbig
    rw [put_eq, if_pos hbig]
    rfl
  · intro hlt
    refine ⟨Form.shortest digits.toNat, Form.holds_shortest hlt, Form.minimal_shortest hlt, ?_⟩
    rw [put_eq, if_neg (Nat.not_le.2 hlt)]
    rfl
  · intro first tail hbytes hlong form n after
    have hrun : take source = if form.floor ≤ n then .ok (Digits.ofNat n) after
      else .error .redundantCompactEncoding after := take_of_form hbytes hlong
    rw [hrun, Form.minimal_iff]
    by_cases hfloor : form.floor ≤ n
    · rw [if_pos hfloor]
      exact ⟨⟨fun _ => hfloor, fun _ => rfl⟩, fun hredundant => absurd hfloor hredundant⟩
    · rw [if_neg hfloor]
      exact ⟨⟨fun hok => (nomatch hok), fun hminimal => absurd hminimal hfloor⟩, fun _ => rfl⟩

namespace Form

theorem value_lt_limit {form : Form} {bytes : List UInt8} (hlength : bytes.length = form.length) :
    form.value bytes < form.limit := by
  have hlt := ofLittleEndian_lt bytes
  rw [hlength] at hlt
  cases form with
  | single =>
    simp only [length, value, limit] at hlt ⊢
    omega
  | double =>
    simp only [length, value, limit] at hlt ⊢
    omega
  | quadruple =>
    simp only [length, value, limit] at hlt ⊢
    omega
  | long extra =>
    have htail := ofLittleEndian_lt bytes.tail
    rwa [List.length_tail, hlength, length, Nat.add_sub_cancel_left] at htail

theorem limit_le_capacity (form : Form) : form.limit ≤ capacity := by
  have hroom : 256 ^ minLong ≤ capacity := by
    rw [capacity_eq]
    exact Nat.pow_le_pow_right (by decide) (by decide)
  cases form with
  | single => exact Nat.le_trans (by decide) hroom
  | double => exact Nat.le_trans (by decide) hroom
  | quadruple => exact Nat.le_trans (by decide) hroom
  | long extra =>
    rw [capacity_eq]
    exact Nat.pow_le_pow_right (by decide) (by simp only [minLong, maxLong]; omega)

theorem eq_of_length_eq {form other : Form} (hlength : form.length = other.length) :
    form = other := by
  cases form <;> cases other <;> simp only [length, minLong] at hlength <;> try omega
  case long.long extra more => exact congrArg long (Fin.ext (by omega))
  all_goals rfl

/-- A form that holds a number and is minimal for it is its shortest one. -/
theorem eq_shortest {form : Form} {n : Nat} (hholds : form.Holds n) (hminimal : form.Minimal n) :
    form = shortest n := by
  have hlt : n < capacity := Nat.lt_of_lt_of_le hholds form.limit_le_capacity
  apply eq_of_length_eq
  apply Nat.le_antisymm
  · exact Nat.not_lt.1 fun hshorter => hminimal _ hshorter (holds_shortest hlt)
  · exact Nat.not_lt.1 fun hshorter => minimal_shortest hlt _ hshorter hholds

end Form

/-- The form of a spelled number is the one that its first byte announces. -/
theorem exists_spelling_eq_cons {n : Nat} (hlt : n < capacity) :
    ∃ first tail, spelling n = first :: tail ∧ Form.ofHeader first = Form.shortest n := by
  cases hspell : spelling n with
  | nil =>
    have hlength := Form.length_spell (Form.shortest n) n
    have hpos := (Form.shortest n).length_pos
    rw [← spelling, hspell, List.length_nil] at hlength
    omega
  | cons first tail =>
    exact ⟨first, tail, rfl, Form.ofHeader_spell (Form.holds_shortest hlt) hspell⟩

/-- What is written for a number is read as that number. -/
theorem yields_spelling {n : Nat} (hlt : n < capacity) :
    Reader.Yields .classic take (spelling n) (Digits.ofNat n) := by
  intro source rest _ hbytes
  obtain ⟨first, tail, hspell, hform⟩ := exists_spelling_eq_cons hlt
  have hlength : (spelling n).length = (Form.ofHeader first).length := by
    rw [hform, spelling, Form.length_spell]
  have hcons : source.bytes = first :: (tail ++ rest) := by rw [hbytes, hspell, List.cons_append]
  rw [take_of_form hcons (by rw [hbytes, List.length_append]; omega), ← hlength, hbytes,
    List.take_left, List.drop_left, hform, spelling, Form.value_spell (Form.holds_shortest hlt),
    if_pos (Form.minimal_iff.1 (Form.minimal_shortest hlt))]

/-- What is read as a number is what is written for it. -/
theorem bytes_of_take {after : Source} (hrun : take source = .ok digits after) :
    ∃ n rest, n < capacity ∧ digits = Digits.ofNat n ∧ source.bytes = spelling n ++ rest ∧
      after = source.withBytes rest := by
  obtain ⟨first, tail, hbytes, hlong⟩ | hnil | ⟨first, tail, hbytes, hshort⟩ :=
    complete_or_truncated source
  · rw [take_of_form hbytes hlong] at hrun
    generalize hform : Form.ofHeader first = form at hlong hrun
    split at hrun
    · rename_i hfloor
      obtain ⟨rfl, rfl⟩ := EStateM.Result.ok.inj hrun
      have hlength : (source.bytes.take form.length).length = form.length :=
        List.length_take_of_le hlong
      have hholds : form.Holds (form.value (source.bytes.take form.length)) :=
        Form.value_lt_limit hlength
      refine ⟨_, _, Nat.lt_of_lt_of_le hholds form.limit_le_capacity, rfl, ?_, rfl⟩
      have hspell : form.spell (form.value (source.bytes.take form.length)) =
          source.bytes.take form.length := by
        subst hform
        rw [hbytes] at hlength ⊢
        obtain ⟨k, hk⟩ : ∃ k, (Form.ofHeader first).length = k + 1 :=
          ⟨_, (Nat.succ_pred_eq_of_pos (Form.length_pos _)).symm⟩
        rw [hk, List.take_succ_cons] at hlength ⊢
        exact Form.spell_value (hlength.trans hk.symm)
      rw [spelling, ← Form.eq_shortest hholds (Form.minimal_iff.2 hfloor), hspell,
        List.take_append_drop]
    · cases hrun
  · rw [take_of_nil hnil] at hrun
    cases hrun
  · rw [take_of_truncated hbytes hshort] at hrun
    cases hrun

end Scale.Classic
