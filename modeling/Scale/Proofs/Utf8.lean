import Scale.Decode

namespace Scale

namespace Utf8

/-- The range of the bytes after the first one, where the first one leaves them free. -/
def tail : Nat × Nat :=
  (0x80, 0xBF)

/-- The forms of a character, each with the least and the greatest byte that may stand in its places. -/
def forms : List (List (Nat × Nat)) :=
  [[(0x00, 0x7F)],
    [(0xC2, 0xDF), tail],
    [(0xE0, 0xE0), (0xA0, 0xBF), tail],
    [(0xE1, 0xEC), tail, tail],
    [(0xED, 0xED), (0x80, 0x9F), tail],
    [(0xEE, 0xEF), tail, tail],
    [(0xF0, 0xF0), (0x90, 0xBF), tail, tail],
    [(0xF1, 0xF3), tail, tail, tail],
    [(0xF4, 0xF4), (0x80, 0x8F), tail, tail]]

/-- Whether there is a number for each place of a form, and in the range of the place. -/
def Spells : List (Nat × Nat) → List Nat → Prop
  | [], [] => True
  | (low, high) :: form, k :: ks => (low ≤ k ∧ k ≤ high) ∧ Spells form ks
  | _, _ => False

/-- Whether bytes are those of one character. -/
def IsCharacter (bytes : List UInt8) : Prop :=
  ∃ form ∈ forms, Spells form (bytes.map UInt8.toNat)

/-- Whether bytes are those of characters, one after the other. -/
def WellFormed (bytes : List UInt8) : Prop :=
  ∃ characters : List (List UInt8), (∀ c ∈ characters, IsCharacter c) ∧ bytes = characters.flatten

variable {form : List (Nat × Nat)} {ks : List Nat} {low high low' high' : Nat}

theorem eq_nil_of_spells (hspells : Spells [] ks) : ks = [] := by
  cases ks with
  | nil => rfl
  | cons k ks => exact hspells.elim

theorem exists_cons_of_spells (hspells : Spells ((low, high) :: form) ks) :
    ∃ k rest, ks = k :: rest ∧ (low ≤ k ∧ k ≤ high) ∧ Spells form rest := by
  cases ks with
  | nil => exact hspells.elim
  | cons k rest => exact ⟨k, rest, rfl, hspells⟩

theorem lt_of_spells (hform : ∀ range ∈ form, range.2 < 256) (hspells : Spells form ks) :
    ∀ k ∈ ks, k < 256 := by
  induction form generalizing ks with
  | nil =>
    obtain rfl := eq_nil_of_spells hspells
    nofun
  | cons range form ih =>
    obtain ⟨hrange, hform⟩ := List.forall_mem_cons.1 hform
    obtain ⟨k, rest, rfl, hk, hrest⟩ := exists_cons_of_spells hspells
    exact List.forall_mem_cons.2 ⟨Nat.lt_of_le_of_lt hk.2 hrange, ih hform hrest⟩

/-- The bytes of the character of a number. -/
def encode (n : Nat) : List Nat :=
  if n ≤ 0x7F then [n]
  else if n ≤ 0x7FF then [n / 64 % 32 + 0xC0, n % 64 + 0x80]
  else if n ≤ 0xFFFF then [n / 4096 % 16 + 0xE0, n / 64 % 64 + 0x80, n % 64 + 0x80]
  else [n / 262144 % 8 + 0xF0, n / 4096 % 64 + 0x80, n / 64 % 64 + 0x80, n % 64 + 0x80]

theorem utf8EncodeChar_eq (c : Char) :
    String.utf8EncodeChar c = (encode c.val.toNat).map UInt8.ofNat := by
  unfold String.utf8EncodeChar encode
  simp only [apply_ite (List.map UInt8.ofNat)]
  rfl

/-- The bytes of a character have one of the forms, by their number and by the first of them. -/
theorem exists_spells_encode {n : Nat} (hn : n.isValidChar) :
    ∃ form ∈ forms, Spells form (encode n) := by
  unfold Nat.isValidChar at hn
  unfold encode
  by_cases hone : n ≤ 0x7F
  · rw [if_pos hone]
    exact ⟨[(0x00, 0x7F)], by simp [forms], ⟨by omega, trivial⟩⟩
  rw [if_neg hone]
  by_cases htwo : n ≤ 0x7FF
  · rw [if_pos htwo]
    exact ⟨[(0xC2, 0xDF), tail], by simp [forms], ⟨by omega, by omega, trivial⟩⟩
  rw [if_neg htwo]
  by_cases hthree : n ≤ 0xFFFF
  · rw [if_pos hthree]
    obtain hfirst | hfirst | hfirst | hfirst : n / 4096 = 0 ∨ (1 ≤ n / 4096 ∧ n / 4096 ≤ 12) ∨
      n / 4096 = 13 ∨ (14 ≤ n / 4096 ∧ n / 4096 ≤ 15) := by omega
    · exact ⟨[(0xE0, 0xE0), (0xA0, 0xBF), tail], by simp [forms],
        ⟨by omega, by omega, by omega, trivial⟩⟩
    · exact ⟨[(0xE1, 0xEC), tail, tail], by simp [forms], ⟨by omega, by omega, by omega, trivial⟩⟩
    · exact ⟨[(0xED, 0xED), (0x80, 0x9F), tail], by simp [forms],
        ⟨by omega, by omega, by omega, trivial⟩⟩
    · exact ⟨[(0xEE, 0xEF), tail, tail], by simp [forms], ⟨by omega, by omega, by omega, trivial⟩⟩
  rw [if_neg hthree]
  obtain hfirst | hfirst | hfirst : n / 262144 = 0 ∨ (1 ≤ n / 262144 ∧ n / 262144 ≤ 3) ∨
    n / 262144 = 4 := by omega
  · exact ⟨[(0xF0, 0xF0), (0x90, 0xBF), tail, tail], by simp [forms],
      ⟨by omega, by omega, by omega, by omega, trivial⟩⟩
  · exact ⟨[(0xF1, 0xF3), tail, tail, tail], by simp [forms],
      ⟨by omega, by omega, by omega, by omega, trivial⟩⟩
  · exact ⟨[(0xF4, 0xF4), (0x80, 0x8F), tail, tail], by simp [forms],
      ⟨by omega, by omega, by omega, by omega, trivial⟩⟩

theorem encode_two {a b : Nat} (ha : 0xC2 ≤ a ∧ a ≤ 0xDF) (hb : 0x80 ≤ b ∧ b ≤ 0xBF) :
    encode (64 * (a - 0xC0) + (b - 0x80)) = [a, b] := by
  rw [encode, if_neg (by omega), if_pos (by omega)]
  exact List.cons_eq_cons.2 ⟨by omega, List.cons_eq_cons.2 ⟨by omega, rfl⟩⟩

theorem encode_three {a b c : Nat} (ha : 0xE0 ≤ a ∧ a ≤ 0xEF) (hb : 0x80 ≤ b ∧ b ≤ 0xBF)
    (hc : 0x80 ≤ c ∧ c ≤ 0xBF) (hlong : a = 0xE0 → 0xA0 ≤ b) :
    encode (4096 * (a - 0xE0) + 64 * (b - 0x80) + (c - 0x80)) = [a, b, c] := by
  rw [encode, if_neg (by omega), if_neg (by omega), if_pos (by omega)]
  refine List.cons_eq_cons.2 ⟨by omega, List.cons_eq_cons.2 ⟨by omega, ?_⟩⟩
  exact List.cons_eq_cons.2 ⟨by omega, rfl⟩

theorem encode_four {a b c d : Nat} (ha : 0xF0 ≤ a ∧ a ≤ 0xF4) (hb : 0x80 ≤ b ∧ b ≤ 0xBF)
    (hc : 0x80 ≤ c ∧ c ≤ 0xBF) (hd : 0x80 ≤ d ∧ d ≤ 0xBF) (hlong : a = 0xF0 → 0x90 ≤ b) :
    encode (262144 * (a - 0xF0) + 4096 * (b - 0x80) + 64 * (c - 0x80) + (d - 0x80)) =
      [a, b, c, d] := by
  rw [encode, if_neg (by omega), if_neg (by omega), if_neg (by omega)]
  refine List.cons_eq_cons.2 ⟨by omega, List.cons_eq_cons.2 ⟨by omega, ?_⟩⟩
  exact List.cons_eq_cons.2 ⟨by omega, List.cons_eq_cons.2 ⟨by omega, rfl⟩⟩

/-- Three bytes are those of a character unless two would do or they spell a surrogate. -/
theorem exists_three (hfirst : 0xE0 ≤ low ∧ high ≤ 0xEF) (hsecond : 0x80 ≤ low' ∧ high' ≤ 0xBF)
    (hlong : low = 0xE0 → 0xA0 ≤ low') (hsurrogate : high < 0xED ∨ 0xED < low ∨ high' ≤ 0x9F)
    (hspells : Spells [(low, high), (low', high'), tail] ks) :
    ∃ n : Nat, n.isValidChar ∧ ks = encode n := by
  obtain ⟨a, _, rfl, ha, hspells⟩ := exists_cons_of_spells hspells
  obtain ⟨b, _, rfl, hb, hspells⟩ := exists_cons_of_spells hspells
  obtain ⟨c, _, rfl, hc, hspells⟩ := exists_cons_of_spells hspells
  obtain rfl := eq_nil_of_spells hspells
  refine ⟨_, ?_, (encode_three (by omega) (by omega) hc (by omega)).symm⟩
  unfold Nat.isValidChar
  omega

/-- Four bytes are those of a character unless three would do or the number is past the last one. -/
theorem exists_four (hfirst : 0xF0 ≤ low ∧ high ≤ 0xF4) (hsecond : 0x80 ≤ low' ∧ high' ≤ 0xBF)
    (hlong : low = 0xF0 → 0x90 ≤ low') (hlast : high = 0xF4 → high' ≤ 0x8F)
    (hspells : Spells [(low, high), (low', high'), tail, tail] ks) :
    ∃ n : Nat, n.isValidChar ∧ ks = encode n := by
  obtain ⟨a, _, rfl, ha, hspells⟩ := exists_cons_of_spells hspells
  obtain ⟨b, _, rfl, hb, hspells⟩ := exists_cons_of_spells hspells
  obtain ⟨c, _, rfl, hc, hspells⟩ := exists_cons_of_spells hspells
  obtain ⟨d, _, rfl, hd, hspells⟩ := exists_cons_of_spells hspells
  obtain rfl := eq_nil_of_spells hspells
  refine ⟨_, ?_, (encode_four (by omega) (by omega) hc hd (by omega)).symm⟩
  unfold Nat.isValidChar
  omega

theorem exists_encode_of_spells (hform : form ∈ forms) (hspells : Spells form ks) :
    ∃ n : Nat, n.isValidChar ∧ ks = encode n := by
  simp only [forms, List.mem_cons, List.not_mem_nil, or_false] at hform
  rcases hform with rfl | rfl | rfl | rfl | rfl | rfl | rfl | rfl | rfl
  · obtain ⟨a, _, rfl, ha, hspells⟩ := exists_cons_of_spells hspells
    obtain rfl := eq_nil_of_spells hspells
    exact ⟨a, .inl (by omega), (if_pos ha.2).symm⟩
  · obtain ⟨a, _, rfl, ha, hspells⟩ := exists_cons_of_spells hspells
    obtain ⟨b, _, rfl, hb, hspells⟩ := exists_cons_of_spells hspells
    obtain rfl := eq_nil_of_spells hspells
    exact ⟨_, .inl (by omega), (encode_two ha hb).symm⟩
  · exact exists_three (by decide) (by decide) (by decide) (by decide) hspells
  · exact exists_three (by decide) (by decide) (by decide) (by decide) hspells
  · exact exists_three (by decide) (by decide) (by decide) (by decide) hspells
  · exact exists_three (by decide) (by decide) (by decide) (by decide) hspells
  · exact exists_four (by decide) (by decide) (by decide) (by decide) hspells
  · exact exists_four (by decide) (by decide) (by decide) (by decide) hspells
  · exact exists_four (by decide) (by decide) (by decide) (by decide) hspells

theorem isCharacter_iff {bytes : List UInt8} :
    IsCharacter bytes ↔ ∃ c : Char, bytes = String.utf8EncodeChar c := by
  constructor
  · rintro ⟨form, hform, hspells⟩
    obtain ⟨n, hn, hbytes⟩ := exists_encode_of_spells hform hspells
    refine ⟨Char.ofNatAux n hn, ?_⟩
    have hnumber : (Char.ofNatAux n hn).val.toNat = n := rfl
    rw [utf8EncodeChar_eq, hnumber, ← hbytes, List.map_map]
    simp [Function.comp_def]
  · rintro ⟨c, rfl⟩
    obtain ⟨form, hform, hspells⟩ := exists_spells_encode c.valid
    refine ⟨form, hform, ?_⟩
    have hranges : ∀ form ∈ forms, ∀ range ∈ form, range.2 < 256 := by decide
    have hlt := lt_of_spells (hranges form hform) hspells
    have hbytes : (String.utf8EncodeChar c).map UInt8.toNat = encode c.val.toNat := by
      rw [utf8EncodeChar_eq, List.map_map]
      refine (List.map_congr_left fun k hk => ?_).trans (List.map_id _)
      simp [Nat.mod_eq_of_lt (hlt k hk)]
    rwa [hbytes]

theorem wellFormed_iff {bytes : List UInt8} :
    WellFormed bytes ↔ ∃ cs : List Char, bytes = cs.flatMap String.utf8EncodeChar := by
  constructor
  · rintro ⟨characters, hcharacters, rfl⟩
    induction characters with
    | nil => exact ⟨[], rfl⟩
    | cons character characters ih =>
      obtain ⟨hfirst, hrest⟩ := List.forall_mem_cons.1 hcharacters
      obtain ⟨c, rfl⟩ := isCharacter_iff.1 hfirst
      obtain ⟨cs, hcs⟩ := ih hrest
      exact ⟨c :: cs, by rw [List.flatten_cons, hcs, List.flatMap_cons]⟩
  · rintro ⟨cs, rfl⟩
    refine ⟨cs.map String.utf8EncodeChar, fun c hc => ?_, List.flatMap_def ..⟩
    obtain ⟨char, _, rfl⟩ := List.mem_map.1 hc
    exact isCharacter_iff.2 ⟨char, rfl⟩

end Utf8

/-- A text is read back from its bytes, and from no other ones. -/
theorem textOfBytes?_eq_some_iff {bytes : List UInt8} {s : String} :
    textOfBytes? bytes = some s ↔ s.toUTF8.data.toList = bytes := by
  unfold textOfBytes? String.fromUTF8?
  constructor
  · intro htext
    by_cases hvalid : (⟨bytes.toArray⟩ : ByteArray).IsValidUTF8
    · rw [dif_pos hvalid] at htext
      obtain rfl := Option.some.inj htext
      rfl
    · rw [dif_neg hvalid] at htext
      cases htext
  · rintro rfl
    rw [Array.toArray_toList]
    exact dif_pos s.isValidUTF8

theorem bytes_ofList (cs : List Char) :
    (String.ofList cs).toUTF8.data.toList = cs.flatMap String.utf8EncodeChar := by
  show (String.ofList cs).toByteArray.data.toList = _
  rw [String.toByteArray_ofList, List.utf8Encode, List.data_toByteArray, List.toList_toArray]

/-- The bytes of the texts are the well-formed ones. -/
theorem wellFormed_iff_exists_text {bytes : List UInt8} :
    Utf8.WellFormed bytes ↔ ∃ s : String, s.toUTF8.data.toList = bytes := by
  rw [Utf8.wellFormed_iff]
  constructor
  · rintro ⟨cs, rfl⟩
    exact ⟨String.ofList cs, bytes_ofList cs⟩
  · rintro ⟨s, rfl⟩
    exact ⟨s.toList, by rw [← bytes_ofList, String.ofList_toList]⟩

end Scale
