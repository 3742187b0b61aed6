import Scale.Enumeration
import Scale.Proofs.Digits

namespace Scale

namespace FixedInt

variable (t : FixedInt)

theorem length_toBytes (n : Int) : (t.toBytes n).length = t.bytes :=
  length_littleEndian _ _

theorem bytes_pos : 0 < t.bytes := by
  unfold bytes
  cases t.width <;> decide

theorem card_pos : 0 < t.card :=
  Nat.pow_pos (by decide)

theorem card_even : 2 * (t.card / 2) = t.card := by
  obtain ⟨k, hk⟩ : ∃ k, t.bytes = k + 1 := ⟨_, (Nat.succ_pred_eq_of_pos t.bytes_pos).symm⟩
  rw [card, hk, Nat.pow_succ]
  omega

theorem contains_iff {n : Int} :
    t.contains n = true ↔ t.lower ≤ n ∧ n < t.lower + t.card := by
  rw [contains, Bool.and_eq_true, decide_eq_true_eq, decide_eq_true_eq, upper]
  omega

/-- A bit pattern is that of the number that it stands for. -/
theorem emod_ofBytes {bytes : List UInt8} (hlength : bytes.length = t.bytes) :
    (t.ofBytes bytes % t.card).toNat = ofLittleEndian bytes := by
  have hlt := ofLittleEndian_lt bytes
  rw [hlength] at hlt
  change ofLittleEndian bytes < t.card at hlt
  have hsmall : ((ofLittleEndian bytes : Int) % t.card).toNat = ofLittleEndian bytes := by
    rw [Int.emod_eq_of_lt (Int.natCast_nonneg _) (Int.ofNat_lt.2 hlt), Int.toNat_natCast]
  unfold ofBytes
  dsimp only
  split
  · rw [Int.sub_emod_right, hsmall]
  · exact hsmall

/-- Bytes of the right length are those of the number that they spell. -/
theorem toBytes_ofBytes {bytes : List UInt8} (hlength : bytes.length = t.bytes) :
    t.toBytes (t.ofBytes bytes) = bytes := by
  rw [toBytes, t.emod_ofBytes hlength, littleEndian_ofLittleEndian_of_length hlength]

/-- All bytes of the right length spell a number of the type. -/
theorem contains_ofBytes {bytes : List UInt8} (hlength : bytes.length = t.bytes) :
    t.contains (t.ofBytes bytes) = true := by
  have hlt := ofLittleEndian_lt bytes
  rw [hlength] at hlt
  change ofLittleEndian bytes < t.card at hlt
  have heven := t.card_even
  rw [t.contains_iff, lower, ofBytes]
  cases t.signed with
  | false =>
    simp only [Bool.false_and, Bool.false_eq_true, if_false]
    omega
  | true =>
    by_cases htop : t.card / 2 ≤ ofLittleEndian bytes
    · simp only [Bool.true_and, decide_eq_true_eq, htop, if_true]
      omega
    · simp only [Bool.true_and, decide_eq_true_eq, htop, if_true, if_false]
      omega

theorem ofLittleEndian_toBytes (n : Int) : ofLittleEndian (t.toBytes n) = (n % t.card).toNat := by
  have hpos := t.card_pos
  have hlt : (n % t.card).toNat < 256 ^ t.bytes := by
    change (n % t.card).toNat < t.card
    have hmod := Int.emod_lt_of_pos n (Int.ofNat_lt.2 hpos)
    have hnonneg := Int.emod_nonneg n (b := (t.card : Int)) (by omega)
    omega
  rw [toBytes, ofLittleEndian_littleEndian_of_lt hlt]

/-- What is read back from the bytes of a number is what it is in the type. -/
theorem ofBytes_toBytes_eq_wrap (n : Int) : t.ofBytes (t.toBytes n) = t.wrap n := by
  have hpos := t.card_pos
  have heven := t.card_even
  have hmod : ((n % t.card).toNat : Int) = n % t.card :=
    Int.toNat_of_nonneg (Int.emod_nonneg n (by omega))
  unfold ofBytes wrap
  rw [ofLittleEndian_toBytes]
  dsimp only
  cases t.signed with
  | false => simp only [Bool.false_and, Bool.false_eq_true, if_false, hmod]
  | true =>
    rw [if_pos rfl, Int.bmod_def]
    by_cases htop : t.card / 2 ≤ (n % t.card).toNat
    · rw [if_pos (by simp [htop]), if_neg (by omega), hmod]
    · rw [if_neg (by simp [htop]), if_pos (by omega), hmod]

/-- A number of the type stays what it is. -/
theorem wrap_of_contains {n : Int} (hcontains : t.contains n = true) : t.wrap n = n := by
  obtain ⟨hlow, hhigh⟩ := t.contains_iff.1 hcontains
  have heven := t.card_even
  unfold lower at hlow hhigh
  unfold wrap
  cases hsigned : t.signed with
  | false =>
    rw [hsigned] at hlow hhigh
    exact Int.emod_eq_of_lt hlow (by simpa using hhigh)
  | true =>
    rw [hsigned, if_pos rfl] at hlow hhigh
    exact Int.bmod_eq_of_le (by omega) (by omega)

/-- Any number is one of the type there. -/
theorem contains_wrap (n : Int) : t.contains (t.wrap n) = true := by
  rw [← t.ofBytes_toBytes_eq_wrap]
  exact t.contains_ofBytes (t.length_toBytes n)

/-- The bytes are those of the number in the type. -/
theorem toBytes_wrap (n : Int) : t.toBytes (t.wrap n) = t.toBytes n := by
  rw [← t.ofBytes_toBytes_eq_wrap, t.toBytes_ofBytes (t.length_toBytes n)]

/-- Nothing is lost of a number but what is beyond the bits of the type. -/
theorem emod_wrap (n : Int) : t.wrap n % t.card = n % t.card := by
  unfold wrap
  split
  · exact Int.bmod_emod
  · exact Int.emod_emod n t.card

/-- A number of the type is read back from its bytes. -/
theorem ofBytes_toBytes {n : Int} (hcontains : t.contains n = true) :
    t.ofBytes (t.toBytes n) = n :=
  (t.ofBytes_toBytes_eq_wrap n).trans (t.wrap_of_contains hcontains)

end FixedInt

namespace Enumeration

variable {e : Enumeration} {i : Nat} {n : Int}

theorem toRepr_of_discriminant? (hdiscriminant : e.discriminant? i = some n) :
    e.coding.toRepr i = e.repr.wrap n := by
  change e.repr.wrap ((e.discriminant? i).getD 0) = _
  rw [hdiscriminant]
  rfl

/-- What is found is an alternative, and its integer is the given one in the underlying type. -/
theorem exists_discriminant?_of_index? (hindex : e.index? n = some i) :
    ∃ m, e.discriminant? i = some m ∧ e.repr.wrap m = n := by
  obtain ⟨hlt, hn, _⟩ := List.findIdx?_eq_some_iff_getElem.1 hindex
  refine ⟨e.alternatives[i].2, ?_, beq_iff_eq.1 hn⟩
  rw [discriminant?, List.getElem?_eq_getElem hlt]
  rfl

theorem toRepr_of_index? (hindex : e.index? n = some i) : e.coding.toRepr i = n := by
  obtain ⟨m, hdiscriminant, rfl⟩ := exists_discriminant?_of_index? hindex
  exact toRepr_of_discriminant? hdiscriminant

/-- Alternatives that no alternative before them equals in the underlying type are found. -/
theorem index?_of_discriminant? (hdiscriminant : e.discriminant? i = some n)
    (hfirst : ∀ j m, e.discriminant? j = some m → e.repr.wrap m = e.repr.wrap n → i ≤ j) :
    e.index? (e.repr.wrap n) = some i := by
  obtain ⟨alternative, hget, rfl⟩ := Option.map_eq_some_iff.1 hdiscriminant
  obtain ⟨hlt, rfl⟩ := List.getElem?_eq_some_iff.1 hget
  refine List.findIdx?_eq_some_iff_getElem.2 ⟨hlt, beq_self_eq_true _, fun j hji hj => ?_⟩
  have hlength : j < e.alternatives.length := Nat.lt_trans hji hlt
  have hbefore : e.discriminant? j = some e.alternatives[j].2 := by
    rw [discriminant?, List.getElem?_eq_getElem hlength]
    rfl
  exact Nat.not_le.2 hji (hfirst j _ hbefore (beq_iff_eq.1 hj))

/-- Alternatives with integers of their own are told apart by them. -/
theorem eq_of_discriminant?_eq (hnodup : (e.alternatives.map (·.2)).Nodup) {j : Nat}
    (hi : e.discriminant? i = some n) (hj : e.discriminant? j = some n) : i = j := by
  have hlisted : ∀ {k}, e.discriminant? k = some n → (e.alternatives.map (·.2))[k]? = some n := by
    intro k hk
    rw [List.getElem?_map]
    exact hk
  obtain ⟨_, hin⟩ := List.getElem?_eq_some_iff.1 (hlisted hi)
  obtain ⟨_, hjn⟩ := List.getElem?_eq_some_iff.1 (hlisted hj)
  exact (List.getElem_inj hnodup).1 (hin.trans hjn.symm)

/-- If all integers are of the underlying type, those of the alternatives are. -/
theorem contains_of_discriminant?
    (hrepr : ∀ alternative ∈ e.alternatives, e.repr.contains alternative.2 = true)
    (hdiscriminant : e.discriminant? i = some n) : e.repr.contains n = true := by
  obtain ⟨alternative, hget, rfl⟩ := Option.map_eq_some_iff.1 hdiscriminant
  exact hrepr alternative (List.mem_of_getElem? hget)

/-- Alternatives with integers of their own, all of the underlying type, are found by them. -/
theorem index?_of_nodup (hnodup : (e.alternatives.map (·.2)).Nodup)
    (hrepr : ∀ alternative ∈ e.alternatives, e.repr.contains alternative.2 = true)
    (hdiscriminant : e.discriminant? i = some n) : e.index? (e.repr.wrap n) = some i := by
  refine index?_of_discriminant? hdiscriminant fun j m hj hsame => ?_
  rw [e.repr.wrap_of_contains (contains_of_discriminant? hrepr hj),
    e.repr.wrap_of_contains (contains_of_discriminant? hrepr hdiscriminant)] at hsame
  subst hsame
  exact Nat.le_of_eq (eq_of_discriminant?_eq hnodup hdiscriminant hj)

end Enumeration

theorem IntegerRange.eq_of_ofRepr? {r : IntegerRange} {m n : Int}
    (hvalue : r.coding.ofRepr? m = some n) : n = m := by
  change (if r.low ≤ m ∧ m ≤ r.high then some m else none) = some n at hvalue
  split at hvalue
  · exact (Option.some.inj hvalue).symm
  · cases hvalue

end Scale
