import Scale.Proofs.Compact.Jam

namespace Scale.Jam

variable {source : Source} {extra high n : Nat}

/-- The least number of bytes after the first one that leaves room for a number, seven bits for each
    byte of the whole, or eight when no smaller number does. -/
structure Shortest (extra n : Nat) : Prop where
  extra_le : extra ≤ maxExtra
  fits : extra < maxExtra → n < 2 ^ (7 * (extra + 1))
  least : ∀ fewer, fewer < extra → 2 ^ (7 * (fewer + 1)) ≤ n

/-- A first byte: ones at the top, as many as there are bytes after it, then a zero, unless the ones
    fill the byte, and then the high bits of the number. -/
structure Header (extra high : Nat) (first : UInt8) : Prop where
  ones : ∀ i, i < extra → first.toNat.testBit (7 - i) = true
  zero : extra < maxExtra → first.toNat.testBit (7 - extra) = false
  high_eq : first.toNat % 2 ^ (7 - extra) = high

theorem shortest_extraBytes (hlt : n < capacity) : Shortest (extraBytes n) n where
  extra_le := extraBytes_le n
  fits := by
    intro hextra
    have hlimit := lt_limit_extraBytes hlt
    rwa [limit, if_pos hextra] at hlimit
  least := by
    intro fewer hfewer
    have hmax : fewer < maxExtra := Nat.lt_of_lt_of_le hfewer (extraBytes_le n)
    have hfloor := Nat.le_trans (limit_le_floor hfewer (extraBytes_le n)) (floor_extraBytes_le n)
    rwa [limit, if_pos hmax] at hfloor

/-- The leading ones of a byte end at its highest zero. -/
theorem leadingOnes_eq_findIdx (byte : UInt8) :
    leadingOnes byte = (List.range 8).findIdx fun i => !byte.toNat.testBit (7 - i) := by
  have hle : ((List.range 8).findIdx fun i => !byte.toNat.testBit (7 - i)) ≤ (List.range 8).length :=
    List.findIdx_le_length
  rw [leadingOnes, List.takeWhile_eq_take_findIdx_not, List.length_take, Nat.min_eq_left hle]

/-- Every byte is the header of its leading ones and of the bits below them. -/
theorem header_leadingOnes (first : UInt8) :
    Header (leadingOnes first) (first.toNat % 2 ^ (7 - leadingOnes first)) first where
  ones := by
    intro i hi
    rw [leadingOnes_eq_findIdx] at hi
    have hbit := List.not_of_lt_findIdx hi
    rwa [List.getElem_range, Bool.not_eq_false'] at hbit
  zero := by
    intro hlt
    have hend : leadingOnes first < (List.range 8).length := by rwa [List.length_range]
    rw [leadingOnes_eq_findIdx] at hend ⊢
    have hbit := List.findIdx_getElem (w := hend)
    rwa [List.getElem_range, Bool.not_eq_true'] at hbit
  high_eq := rfl

theorem header_marker (hextra : extra ≤ maxExtra) (hhigh : high < 2 ^ (7 - extra)) :
    Header extra high (UInt8.ofNat (marker extra + high)) := by
  have hheader := header_leadingOnes (UInt8.ofNat (marker extra + high))
  rwa [leadingOnes_marker hextra hhigh, marker_mod hextra hhigh] at hheader

theorem put_of_lt {digits : Digits} (hlt : digits.toNat < capacity) (sink : Sink) :
    put digits sink = .ok () (sink.append (spelling digits.toNat)) := by
  rw [put_eq, if_neg (Nat.not_le.2 hlt)]
  rfl

theorem put_of_le {digits : Digits} (hle : capacity ≤ digits.toNat) (sink : Sink) :
    put digits sink = .error .valueTooBig sink := by
  rw [put_eq, if_pos hle]
  rfl

/-- A number is written in the shortest form, behind a first byte that tells its length. -/
theorem exists_spelling_eq_cons (hlt : n < capacity) :
    ∃ extra first, Shortest extra n ∧ Header extra (n / 2 ^ (8 * extra)) first ∧
      spelling n = first :: littleEndian extra n := by
  have hhigh := high_lt (extraBytes_le n) (lt_limit_extraBytes hlt)
  refine ⟨extraBytes n, _, shortest_extraBytes hlt, ?_, rfl⟩
  rw [Nat.pow_mul]
  exact header_marker (extraBytes_le n) hhigh

theorem take_eq_notEnoughData_iff {first : UInt8} {tail : List UInt8}
    (hbytes : source.bytes = first :: tail) :
    (∃ rest, take source = .error .notEnoughData rest) ↔ tail.length < leadingOnes first := by
  constructor
  · rintro ⟨rest, hrun⟩
    refine Nat.not_le.1 fun hlong => ?_
    rw [take_of_form hbytes hlong] at hrun
    split at hrun <;> cases hrun
  · intro hshort
    exact ⟨_, take_of_truncated hbytes hshort⟩

/-- What is taken off a source as a number is what is written for that number, and nothing else. -/
theorem take_eq_ok_iff {digits : Digits} {rest : List UInt8} :
    take source = .ok digits (source.withBytes rest) ↔
      digits.Trimmed ∧ ∃ bytes, source.bytes = bytes ++ rest ∧
        ∀ sink, put digits sink = .ok () (sink.append bytes) := by
  constructor
  · intro hrun
    obtain ⟨n, left, hlt, rfl, hbytes, hleft⟩ := bytes_of_take hrun
    have hrest : rest = left := by
      have hboth := congrArg Source.bytes hleft
      rwa [Source.bytes_withBytes, Source.bytes_withBytes] at hboth
    refine ⟨Digits.trimmed_ofNat n, spelling n, by rw [hbytes, hrest], fun sink => ?_⟩
    have hput := put_of_lt (by rwa [Digits.toNat_ofNat]) sink
    rwa [Digits.toNat_ofNat] at hput
  · rintro ⟨htrimmed, bytes, hbytes, hput⟩
    by_cases hlt : digits.toNat < capacity
    · have hspelling : bytes = spelling digits.toNat := by
        have hsink := (hput (Writer.blankSink .jam)).symm.trans (put_of_lt hlt _)
        exact Writer.append_blankSink_inj (EStateM.Result.ok.inj hsink).2
      rw [take_of_spelling hlt (hspelling ▸ hbytes), Digits.ofNat_toNat htrimmed]
    · have hsink := hput (Writer.blankSink .jam)
      rw [put_of_le (Nat.not_lt.1 hlt)] at hsink
      cases hsink

/-- Every number below `2 ^ 64` is written behind a first byte that tells the least number of bytes
    to follow, and every form that is there is read, provided that a shorter one could not have held
    its number. So what is read is exactly what is written. -/
theorem put_least_and_take_minimal :
    (∀ (digits : Digits) (sink : Sink), let n := digits.toNat
      (2 ^ 64 ≤ n → put digits sink = .error .valueTooBig sink) ∧
      (n < 2 ^ 64 → ∃ extra first, Shortest extra n ∧ Header extra (n / 2 ^ (8 * extra)) first ∧
        put digits sink = .ok () (sink.append (first :: littleEndian extra n)))) ∧
    (∀ (source : Source) (first : UInt8) (tail : List UInt8), source.bytes = first :: tail →
      let extra := leadingOnes first
      let high := first.toNat % 2 ^ (7 - extra)
      let n := ofLittleEndian (tail.take extra) + 2 ^ (8 * extra) * high
      let after := source.withBytes (tail.drop extra)
      Header extra high first ∧
      ((∃ rest, take source = .error .notEnoughData rest) ↔ tail.length < extra) ∧
      (extra ≤ tail.length →
        (take source = .ok (Digits.ofNat n) after ↔ extra = 0 ∨ 2 ^ (7 * extra) ≤ n) ∧
        (¬ (extra = 0 ∨ 2 ^ (7 * extra) ≤ n) →
          take source = .error .redundantCompactEncoding after))) ∧
    ∀ (source : Source) (digits : Digits) (rest : List UInt8),
      take source = .ok digits (source.withBytes rest) ↔
        digits.Trimmed ∧ ∃ bytes, source.bytes = bytes ++ rest ∧
          ∀ sink, put digits sink = .ok () (sink.append bytes) := by
  refine ⟨fun digits sink => ⟨fun hbig => put_of_le hbig sink, ?_⟩, ?_,
    fun source digits rest => take_eq_ok_iff⟩
  · intro hlt
    obtain ⟨extra, first, hshortest, hheader, hspelling⟩ := exists_spelling_eq_cons hlt
    refine ⟨extra, first, hshortest, hheader, ?_⟩
    rw [put_of_lt hlt, hspelling]
  · intro source first tail hbytes extra high n after
    refine ⟨header_leadingOnes first, take_eq_notEnoughData_iff hbytes, fun hlong => ?_⟩
    have hlength : (tail.take extra).length = extra := List.length_take_of_le hlong
    have hvalue : value first (tail.take extra) = n := by
      change _ = ofLittleEndian (tail.take extra) + 2 ^ (8 * extra) * high
      rw [value, hlength, Nat.pow_mul]
    have hrun : take source = if floor extra ≤ n then .ok (Digits.ofNat n) after
        else .error .redundantCompactEncoding after := by
      rw [← hvalue]
      exact take_of_form hbytes hlong
    have hfloor : floor extra ≤ n ↔ extra = 0 ∨ 2 ^ (7 * extra) ≤ n := by
      unfold floor
      by_cases hzero : extra = 0
      · simp [hzero]
      · simp [hzero]
    rw [hrun, ← hfloor]
    by_cases hminimal : floor extra ≤ n
    · rw [if_pos hminimal]
      exact ⟨⟨fun _ => hminimal, fun _ => rfl⟩, fun hredundant => absurd hminimal hredundant⟩
    · rw [if_neg hminimal]
      refine ⟨⟨?_, fun hmin => absurd hmin hminimal⟩, fun _ => rfl⟩
      intro hok
      cases hok

end Scale.Jam
