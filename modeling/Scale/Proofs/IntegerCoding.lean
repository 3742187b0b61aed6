import Scale.Proofs.Consumption
import Scale.Proofs.Emission
import Scale.Proofs.FixedInt

namespace Scale

variable {α β : Type}

/-- A type is coded as integers: a value is written as the bytes of its integer in the width of the
    underlying type, and so many bytes are read. They are those of one value, or else refused. -/
structure CodesIntegers (repr : FixedInt) (integer : α → Int → Prop) (write : α → Writer Unit)
    (read : Reader α) : Prop where
  unique : ∀ {a b m n}, integer a m → integer b n → repr.toBytes m = repr.toBytes n → a = b
  emits : ∀ {a n}, integer a n → ∀ scheme, Writer.Emits scheme (write a) (repr.toBytes n)
  ok_iff : ∀ (source : Source) a after, read source = .ok a after ↔
    ∃ n rest, integer a n ∧ source.bytes = repr.toBytes n ++ rest ∧ after = source.withBytes rest
  notEnoughData_iff : ∀ (source : Source) after, read source = .error .notEnoughData after ↔
    source.bytes.length < repr.bytes ∧ after = source
  invalid_iff : ∀ (source : Source) after, read source = .error .invalidEnumValue after ↔
    repr.bytes ≤ source.bytes.length ∧
      (∀ a n, integer a n → repr.toBytes n ≠ source.bytes.take repr.bytes) ∧
      after = source.withBytes (source.bytes.drop repr.bytes)

/-- The values of a type stand for integers of the underlying type, and a value is found by the integer
    that it stands for and by no other. -/
structure IntegerCoding.Inverts (coding : IntegerCoding α) (valid : α → Prop) : Prop where
  contains : ∀ {a}, valid a → coding.repr.contains (coding.toRepr a) = true
  found : ∀ {a}, valid a → coding.ofRepr? (coding.toRepr a) = some a
  of_found : ∀ {n a}, coding.repr.contains n = true → coding.ofRepr? n = some a →
    valid a ∧ coding.toRepr a = n

namespace IntegerCoding

variable {coding : IntegerCoding α} {valid : α → Prop} {source : Source}

theorem take_of_lt (hlt : source.bytes.length < coding.repr.bytes) :
    coding.take source = .error .notEnoughData source := by
  have hread : coding.repr.take source = .error .notEnoughData source :=
    Step.bind_of_error (Reader.read_of_lt hlt)
  exact Step.bind_of_error hread

/-- The integer is taken before it is looked at. -/
theorem take_of_le (hle : coding.repr.bytes ≤ source.bytes.length) : coding.take source =
    match coding.ofRepr? (coding.repr.ofBytes (source.bytes.take coding.repr.bytes)) with
    | some a => .ok a (source.withBytes (source.bytes.drop coding.repr.bytes))
    | none => .error .invalidEnumValue (source.withBytes (source.bytes.drop coding.repr.bytes)) := by
  have hread : coding.repr.take source = _ := Step.bind_of_ok (Reader.read_of_le hle)
  rw [take, Step.bind_of_ok hread]
  cases coding.ofRepr? (coding.repr.ofBytes (source.bytes.take coding.repr.bytes)) <;> rfl

/-- Taking fails for lack of data just when there is not enough of it, and then leaves the source alone. -/
theorem take_eq_notEnoughData_iff {after : Source} :
    coding.take source = .error .notEnoughData after ↔
      source.bytes.length < coding.repr.bytes ∧ after = source := by
  constructor
  · intro hrun
    by_cases hle : coding.repr.bytes ≤ source.bytes.length
    · rw [take_of_le hle] at hrun
      split at hrun <;> cases hrun
    · rw [take_of_lt (Nat.not_le.1 hle)] at hrun
      exact ⟨Nat.not_le.1 hle, (EStateM.Result.error.inj hrun).2.symm⟩
  · rintro ⟨hlt, rfl⟩
    exact take_of_lt hlt

namespace Inverts

/-- A value is found by what its bytes spell. -/
theorem ofRepr?_eq_some_iff (hinverts : coding.Inverts valid) {bytes : List UInt8} {a : α}
    (hlength : bytes.length = coding.repr.bytes) :
    coding.ofRepr? (coding.repr.ofBytes bytes) = some a ↔
      valid a ∧ coding.repr.toBytes (coding.toRepr a) = bytes := by
  constructor
  · intro hfound
    obtain ⟨ha, hrepr⟩ := hinverts.of_found (coding.repr.contains_ofBytes hlength) hfound
    exact ⟨ha, by rw [hrepr, coding.repr.toBytes_ofBytes hlength]⟩
  · rintro ⟨ha, rfl⟩
    rw [coding.repr.ofBytes_toBytes (hinverts.contains ha), hinverts.found ha]

/-- A value is taken just where its bytes are. -/
theorem take_eq_ok_iff (hinverts : coding.Inverts valid) {a : α} {after : Source} :
    coding.take source = .ok a after ↔ valid a ∧ ∃ rest,
      source.bytes = coding.repr.toBytes (coding.toRepr a) ++ rest ∧
        after = source.withBytes rest := by
  constructor
  · intro hrun
    by_cases hle : coding.repr.bytes ≤ source.bytes.length
    · rw [take_of_le hle] at hrun
      split at hrun
      · next hfound =>
        obtain ⟨rfl, rfl⟩ := EStateM.Result.ok.inj hrun
        obtain ⟨ha, hspelled⟩ :=
          (hinverts.ofRepr?_eq_some_iff (List.length_take_of_le hle)).1 hfound
        exact ⟨ha, _, by rw [hspelled, List.take_append_drop], rfl⟩
      · cases hrun
    · rw [take_of_lt (Nat.not_le.1 hle)] at hrun
      cases hrun
  · rintro ⟨ha, rest, hsource, rfl⟩
    have hlength := coding.repr.length_toBytes (coding.toRepr a)
    have hle : coding.repr.bytes ≤ source.bytes.length := by
      rw [hsource, List.length_append, hlength]
      exact Nat.le_add_right _ _
    have hfound := (hinverts.ofRepr?_eq_some_iff hlength).2 ⟨ha, rfl⟩
    rw [take_of_le hle, hsource, List.take_left' hlength, List.drop_left' hlength, hfound]

/-- Bytes that are those of no value are refused after they have been taken. -/
theorem take_eq_invalid_iff (hinverts : coding.Inverts valid) {after : Source} :
    coding.take source = .error .invalidEnumValue after ↔
      coding.repr.bytes ≤ source.bytes.length ∧
        (∀ a, valid a →
          coding.repr.toBytes (coding.toRepr a) ≠ source.bytes.take coding.repr.bytes) ∧
        after = source.withBytes (source.bytes.drop coding.repr.bytes) := by
  constructor
  · intro hrun
    by_cases hle : coding.repr.bytes ≤ source.bytes.length
    · rw [take_of_le hle] at hrun
      split at hrun
      · cases hrun
      · next hnone =>
        refine ⟨hle, fun a ha hspelled => ?_, (EStateM.Result.error.inj hrun).2.symm⟩
        have hfound :=
          (hinverts.ofRepr?_eq_some_iff (List.length_take_of_le hle)).2 ⟨ha, hspelled⟩
        rw [hnone] at hfound
        cases hfound
    · rw [take_of_lt (Nat.not_le.1 hle)] at hrun
      cases hrun
  · rintro ⟨hle, hnone, rfl⟩
    rw [take_of_le hle]
    split
    · next hfound =>
      obtain ⟨ha, hspelled⟩ :=
        (hinverts.ofRepr?_eq_some_iff (List.length_take_of_le hle)).1 hfound
      exact absurd hspelled (hnone _ ha)
    · rfl

/-- Values are coded as the integers that they stand for, however these are told apart. -/
theorem codesIntegers (hinverts : coding.Inverts valid) :
    CodesIntegers coding.repr (fun a n => valid a ∧ coding.toRepr a = n) coding.put coding.take := by
  refine ⟨?_, ?_, fun source a after => ?_, fun source after => take_eq_notEnoughData_iff,
    fun source after => ?_⟩
  · rintro a b _ _ ⟨ha, rfl⟩ ⟨hb, rfl⟩ hsame
    have hlength := coding.repr.length_toBytes (coding.toRepr b)
    have hfound := (hinverts.ofRepr?_eq_some_iff hlength).2 ⟨ha, hsame⟩
    have hown := (hinverts.ofRepr?_eq_some_iff hlength).2 ⟨hb, rfl⟩
    exact Option.some.inj (hfound.symm.trans hown)
  · rintro a _ ⟨_, rfl⟩ scheme
    exact Writer.Emits.putSpan _
  · rw [hinverts.take_eq_ok_iff]
    constructor
    · rintro ⟨ha, rest, hsource, hafter⟩
      exact ⟨_, rest, ⟨ha, rfl⟩, hsource, hafter⟩
    · rintro ⟨_, rest, ⟨ha, rfl⟩, hsource, hafter⟩
      exact ⟨ha, rest, hsource, hafter⟩
  · rw [hinverts.take_eq_invalid_iff]
    refine and_congr_right fun _ => and_congr_left fun _ => ?_
    constructor
    · rintro hnone a _ ⟨ha, rfl⟩
      exact hnone a ha
    · exact fun hnone a ha => hnone a _ ⟨ha, rfl⟩

end Inverts

end IntegerCoding

/-- The coding stays the same when the values are called something else, and their integers have the
    same bytes. -/
theorem CodesIntegers.map {repr : FixedInt} {integer : α → Int → Prop} {integer' : β → Int → Prop}
    {write : α → Writer Unit} {write' : β → Writer Unit} {read : Reader α} {f : α → β}
    (hcodes : CodesIntegers repr integer write read) (hwrite : ∀ a, write' (f a) = write a)
    (hof : ∀ {a m}, integer a m → ∃ n, integer' (f a) n ∧ repr.toBytes n = repr.toBytes m)
    (hto : ∀ {b n}, integer' b n → ∃ a m, b = f a ∧ integer a m ∧ repr.toBytes m = repr.toBytes n) :
    CodesIntegers repr integer' write' (do return f (← read)) := by
  refine ⟨?_, ?_, fun source b after => ?_, fun source after => ?_, fun source after => ?_⟩
  · intro b c m n hm hn hsame
    obtain ⟨a, k, rfl, hk, hkm⟩ := hto hm
    obtain ⟨a', k', rfl, hk', hkn⟩ := hto hn
    rw [hcodes.unique hk hk' (hkm.trans (hsame.trans hkn.symm))]
  · intro b n hn scheme
    obtain ⟨a, m, rfl, hm, hsame⟩ := hto hn
    rw [hwrite, ← hsame]
    exact hcodes.emits hm scheme
  · rw [Step.map_eq_ok_iff]
    constructor
    · rintro ⟨a, hread, rfl⟩
      obtain ⟨m, rest, hm, hsource, hafter⟩ := (hcodes.ok_iff _ _ _).1 hread
      obtain ⟨n, hn, hsame⟩ := hof hm
      exact ⟨n, rest, hn, by rw [hsame, hsource], hafter⟩
    · rintro ⟨n, rest, hn, hsource, hafter⟩
      obtain ⟨a, m, rfl, hm, hsame⟩ := hto hn
      exact ⟨a, (hcodes.ok_iff _ _ _).2 ⟨m, rest, hm, by rw [hsame, hsource], hafter⟩, rfl⟩
  · exact Step.map_eq_error_iff.trans (hcodes.notEnoughData_iff source after)
  · rw [Step.map_eq_error_iff, hcodes.invalid_iff]
    refine and_congr_right fun _ => and_congr_left fun _ => ?_
    constructor
    · intro hnone b n hn
      obtain ⟨a, m, rfl, hm, hsame⟩ := hto hn
      exact hsame ▸ hnone a m hm
    · intro hnone a m hm
      obtain ⟨n, hn, hsame⟩ := hof hm
      exact hsame ▸ hnone (f a) n hn

end Scale
