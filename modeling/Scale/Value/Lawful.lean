import Scale.BitSeq.Lemmas
import Scale.Value.Order
import Scale.Value.Table

namespace Scale.Value

theorem compareLex_swap {α : Type} {cmp : α → α → Ordering}
    (hcmp : ∀ a b, (cmp a b).swap = cmp b a) (xs ys : List α) :
    (compareLex cmp xs ys).swap = compareLex cmp ys xs := by
  induction xs generalizing ys with
  | nil => cases ys <;> rfl
  | cons x xs ih =>
    cases ys with
    | nil => rfl
    | cons y ys => rw [compareLex, compareLex, Ordering.swap_then, hcmp, ih]

theorem compare_swap {α : Type} [Ord α] [Std.OrientedOrd α] (a b : α) :
    (compare a b).swap = compare b a :=
  Std.OrientedOrd.eq_swap.symm

mutual

/-- Comparing two values the other way round gives the opposite. -/
theorem cmp_swap (v w : Value) : (v.cmp w).swap = w.cmp v := by
  cases v with
  | int m => cases w <;> exact compare_swap _ _
  | bool a => cases w <;> exact compare_swap _ _
  | text s => cases w <;> exact compare_swap _ _
  | blob xs =>
    cases w with
    | blob ys => exact compareLex_swap compare_swap xs ys
    | _ => rfl
  | bits a =>
    cases w with
    | bits b => exact compareLex_swap compare_swap a.toList b.toList
    | _ => rfl
  | absent => cases w <;> rfl
  | present v =>
    cases w with
    | present w => exact cmp_swap v w
    | _ => rfl
  | list vs =>
    cases w with
    | list ws => exact cmpList_swap vs ws
    | _ => rfl
  | tagged i v =>
    cases w with
    | tagged j w => rw [cmp, cmp, Ordering.swap_then, compare_swap, cmp_swap v w]
    | _ => rfl
  | dangling => cases w <;> rfl

theorem cmpList_swap (vs ws : List Value) : (cmpList vs ws).swap = cmpList ws vs := by
  cases vs with
  | nil => cases ws <;> rfl
  | cons v vs =>
    cases ws with
    | nil => rfl
    | cons w ws => rw [cmpList, cmpList, Ordering.swap_then, cmp_swap v w, cmpList_swap vs ws]

end

section

variable {α : Type} {cmp : α → α → Ordering}

theorem compareLex_eq_iff (heq : ∀ a b, cmp a b = .eq ↔ a = b) {xs ys : List α} :
    compareLex cmp xs ys = .eq ↔ xs = ys := by
  induction xs generalizing ys with
  | nil => cases ys <;> simp [compareLex]
  | cons x xs ih =>
    cases ys with
    | nil => simp [compareLex]
    | cons y ys => rw [compareLex, Ordering.then_eq_eq, heq, ih, List.cons.injEq]

/-- Comparing first parts before others is transitive when both comparisons are. -/
theorem then_lt_trans {a b c : α} {p q r : Ordering} (heq : ∀ a b, cmp a b = .eq ↔ a = b)
    (htrans : cmp a b = .lt → cmp b c = .lt → cmp a c = .lt)
    (hrest : p = .lt → q = .lt → r = .lt) (hab : (cmp a b).then p = .lt)
    (hbc : (cmp b c).then q = .lt) : (cmp a c).then r = .lt := by
  rw [Ordering.then_eq_lt] at hab hbc ⊢
  rcases hab with hab | ⟨hab, hp⟩
  · rcases hbc with hbc | ⟨hbc, _⟩
    · exact .inl (htrans hab hbc)
    · obtain rfl := (heq b c).1 hbc
      exact .inl hab
  · obtain rfl := (heq a b).1 hab
    rcases hbc with hbc | ⟨hbc, hq⟩
    · exact .inl hbc
    · exact .inr ⟨hbc, hrest hp hq⟩

theorem compareLex_lt_trans (heq : ∀ a b, cmp a b = .eq ↔ a = b)
    (htrans : ∀ a b c, cmp a b = .lt → cmp b c = .lt → cmp a c = .lt) {xs ys zs : List α}
    (hxy : compareLex cmp xs ys = .lt) (hyz : compareLex cmp ys zs = .lt) :
    compareLex cmp xs zs = .lt := by
  induction xs generalizing ys zs with
  | nil =>
    cases zs with
    | nil => cases ys <;> cases hyz
    | cons z zs => rfl
  | cons x xs ih =>
    cases ys with
    | nil => cases hxy
    | cons y ys =>
      cases zs with
      | nil => cases hyz
      | cons z zs =>
        rw [compareLex] at hxy hyz ⊢
        exact then_lt_trans heq (htrans x y z) ih hxy hyz

end

/-- Values of different kinds are compared by their kinds. -/
theorem cmp_of_rank_ne {v w : Value} (hne : v.rank ≠ w.rank) :
    v.cmp w = compare v.rank w.rank := by
  cases v <;> cases w <;> first | rfl | exact absurd rfl hne

mutual

theorem cmp_eq_iff {v w : Value} : v.cmp w = .eq ↔ v = w := by
  cases v with
  | int m =>
    cases w with
    | int n => rw [cmp, Std.compare_eq_iff_eq, int.injEq]
    | _ => exact ⟨nofun, nofun⟩
  | bool a =>
    cases w with
    | bool b => rw [cmp, Std.compare_eq_iff_eq, bool.injEq]
    | _ => exact ⟨nofun, nofun⟩
  | text s =>
    cases w with
    | text t => rw [cmp, Std.compare_eq_iff_eq, text.injEq]
    | _ => exact ⟨nofun, nofun⟩
  | blob xs =>
    cases w with
    | blob ys => rw [cmp, compareLex_eq_iff fun _ _ => Std.compare_eq_iff_eq, blob.injEq]
    | _ => exact ⟨nofun, nofun⟩
  | bits a =>
    cases w with
    | bits b =>
      rw [cmp, compareLex_eq_iff fun _ _ => Std.compare_eq_iff_eq, bits.injEq]
      exact BitSeq.toList_inj
    | _ => exact ⟨nofun, nofun⟩
  | absent =>
    cases w with
    | absent => exact ⟨fun _ => rfl, fun _ => rfl⟩
    | _ => exact ⟨nofun, nofun⟩
  | present v =>
    cases w with
    | present w => rw [cmp, cmp_eq_iff, present.injEq]
    | _ => exact ⟨nofun, nofun⟩
  | list vs =>
    cases w with
    | list ws => rw [cmp, cmpList_eq_iff, list.injEq]
    | _ => exact ⟨nofun, nofun⟩
  | tagged i v =>
    cases w with
    | tagged j w =>
      rw [cmp, Ordering.then_eq_eq, Std.compare_eq_iff_eq, cmp_eq_iff, tagged.injEq]
    | _ => exact ⟨nofun, nofun⟩
  | dangling =>
    cases w with
    | dangling => exact ⟨fun _ => rfl, fun _ => rfl⟩
    | _ => exact ⟨nofun, nofun⟩

theorem cmpList_eq_iff {vs ws : List Value} : cmpList vs ws = .eq ↔ vs = ws := by
  cases vs with
  | nil => cases ws <;> simp [cmpList]
  | cons v vs =>
    cases ws with
    | nil => simp [cmpList]
    | cons w ws => rw [cmpList, Ordering.then_eq_eq, cmp_eq_iff, cmpList_eq_iff, List.cons.injEq]

end

theorem rank_le_of_cmp_lt {v w : Value} (hlt : v.cmp w = .lt) : v.rank ≤ w.rank := by
  by_cases hrank : v.rank = w.rank
  · exact Nat.le_of_eq hrank
  · rw [cmp_of_rank_ne hrank] at hlt
    exact Nat.le_of_lt (Nat.compare_eq_lt.1 hlt)

mutual

/-- Comparing values is transitive. -/
theorem cmp_lt_trans {u v w : Value} (huv : u.cmp v = .lt) (hvw : v.cmp w = .lt) :
    u.cmp w = .lt := by
  have hle := rank_le_of_cmp_lt huv
  have hle' := rank_le_of_cmp_lt hvw
  by_cases hrank : u.rank = w.rank
  · -- All three are of one kind.
    have hfirst : u.rank = v.rank := by omega
    have hsecond : v.rank = w.rank := by omega
    cases u with
    | int l =>
      cases v with
      | int m =>
        cases w with
        | int n =>
          rw [cmp] at huv hvw ⊢
          exact Std.TransCmp.lt_trans huv hvw
        | _ => cases hsecond
      | _ => cases hfirst
    | bool a =>
      cases v with
      | bool b =>
        cases w with
        | bool c =>
          rw [cmp] at huv hvw ⊢
          exact Std.TransCmp.lt_trans huv hvw
        | _ => cases hsecond
      | _ => cases hfirst
    | text r =>
      cases v with
      | text s =>
        cases w with
        | text t =>
          rw [cmp] at huv hvw ⊢
          exact Std.TransCmp.lt_trans huv hvw
        | _ => cases hsecond
      | _ => cases hfirst
    | blob xs =>
      cases v with
      | blob ys =>
        cases w with
        | blob zs =>
          exact compareLex_lt_trans (fun _ _ => Std.compare_eq_iff_eq)
            (fun _ _ _ => Std.TransCmp.lt_trans) huv hvw
        | _ => cases hsecond
      | _ => cases hfirst
    | bits a =>
      cases v with
      | bits b =>
        cases w with
        | bits c =>
          exact compareLex_lt_trans (fun _ _ => Std.compare_eq_iff_eq)
            (fun _ _ _ => Std.TransCmp.lt_trans) huv hvw
        | _ => cases hsecond
      | _ => cases hfirst
    | absent =>
      cases v with
      | absent => cases huv
      | _ => cases hfirst
    | present u =>
      cases v with
      | present v =>
        cases w with
        | present w =>
          rw [cmp] at huv hvw ⊢
          exact cmp_lt_trans huv hvw
        | _ => cases hsecond
      | _ => cases hfirst
    | list us =>
      cases v with
      | list vs =>
        cases w with
        | list ws =>
          rw [cmp] at huv hvw ⊢
          exact cmpList_lt_trans huv hvw
        | _ => cases hsecond
      | _ => cases hfirst
    | tagged i u =>
      cases v with
      | tagged j v =>
        cases w with
        | tagged k w =>
          rw [cmp] at huv hvw ⊢
          exact then_lt_trans (fun _ _ => Std.compare_eq_iff_eq) Std.TransCmp.lt_trans
            cmp_lt_trans huv hvw
        | _ => cases hsecond
      | _ => cases hfirst
    | dangling =>
      cases v with
      | dangling => cases huv
      | _ => cases hfirst
  · rw [cmp_of_rank_ne hrank, Nat.compare_eq_lt]
    omega

theorem cmpList_lt_trans {us vs ws : List Value} (huv : cmpList us vs = .lt)
    (hvw : cmpList vs ws = .lt) : cmpList us ws = .lt := by
  cases us with
  | nil =>
    cases ws with
    | nil => cases vs <;> cases hvw
    | cons w ws => rfl
  | cons u us =>
    cases vs with
    | nil => cases huv
    | cons v vs =>
      cases ws with
      | nil => cases hvw
      | cons w ws =>
        rw [cmpList] at huv hvw ⊢
        exact then_lt_trans (fun _ _ => cmp_eq_iff) cmp_lt_trans cmpList_lt_trans huv hvw

end

instance : Std.TransCmp cmp where
  eq_swap {v w} := (cmp_swap w v).symm
  isLE_trans {u v w} huv hvw := by
    rw [Ordering.isLE_iff_eq_lt_or_eq_eq] at *
    rcases huv with huv | huv
    · rcases hvw with hvw | hvw
      · exact .inl (cmp_lt_trans huv hvw)
      · exact .inl (cmp_eq_iff.1 hvw ▸ huv)
    · rwa [cmp_eq_iff.1 huv]

instance : Std.LawfulEqCmp cmp where
  compare_self := cmp_eq_iff.2 rfl
  eq_of_compare := cmp_eq_iff.1

end Scale.Value

namespace Scale.KeyOrder

/-- The order of keys by what they are made of. -/
def structural : KeyOrder :=
  ⟨Value.cmp, inferInstance, inferInstance⟩

/-- The order the other way round. -/
def reverse (order : KeyOrder) : KeyOrder where
  cmp v w := order.cmp w v
  transitive := inferInstance
  lawful :=
    { compare_self := Std.ReflCmp.compare_self
      eq_of_compare := fun heq => (Std.LawfulEqCmp.eq_of_compare heq).symm }

section

variable {P : Value → Prop} [DecidablePred P] (compareIn : Subtype P → Subtype P → Ordering)

/-- Values with the property come first, in their own order, and then all others. -/
def continued (v w : Value) : Ordering :=
  if hv : P v then
    if hw : P w then compareIn ⟨v, hv⟩ ⟨w, hw⟩ else .lt
  else if P w then .gt else v.cmp w

variable [Std.TransCmp compareIn] [Std.LawfulEqCmp compareIn]

instance : Std.TransCmp (continued compareIn) where
  eq_swap {v w} := by
    unfold continued
    split <;> split <;> first | exact Std.OrientedCmp.eq_swap | rfl
  isLE_trans {u v w} huv hvw := by
    unfold continued at *
    by_cases hu : P u
    · by_cases hw : P w
      · by_cases hv : P v
        · simp only [hu, hv, hw, dite_true] at *
          exact Std.TransCmp.isLE_trans huv hvw
        · simp [hv, hw] at hvw
      · simp [hu, hw]
    · by_cases hv : P v
      · simp [hu, hv] at huv
      · by_cases hw : P w
        · simp [hv, hw] at hvw
        · simp only [hu, hv, hw, dite_false, if_false] at *
          exact Std.TransCmp.isLE_trans huv hvw

instance : Std.LawfulEqCmp (continued compareIn) where
  compare_self {v} := by
    unfold continued
    split <;> exact Std.ReflCmp.compare_self
  eq_of_compare {v w} heq := by
    unfold continued at heq
    by_cases hv : P v
    · by_cases hw : P w
      · simp only [hv, hw, dite_true] at heq
        exact congrArg Subtype.val (Std.LawfulEqCmp.eq_of_compare heq)
      · simp [hv, hw] at heq
    · by_cases hw : P w
      · simp [hv, hw] at heq
      · simp only [hv, hw, dite_false, if_false] at heq
        exact Std.LawfulEqCmp.eq_of_compare heq

omit [DecidablePred P] in
/-- Every total order of the values of a type is the order of its keys. -/
theorem exists_continues : ∃ order : KeyOrder, ∀ v w : Subtype P, order.cmp v w = compareIn v w := by
  classical
  refine ⟨⟨continued compareIn, inferInstance, inferInstance⟩, fun v w => ?_⟩
  change continued compareIn v w = _
  simp only [continued, v.2, w.2, dite_true]

end

end Scale.KeyOrder
