import Scale.Schema.Basic

namespace Scale

/-- Where there are as many values as items, every item has a value. -/
theorem exists_mem_zip {α β : Type} {items : List α} {values : List β} {a : α}
    (hlength : values.length = items.length) (hmem : a ∈ items) : ∃ b, (a, b) ∈ items.zip values := by
  rw [← List.map_fst_zip (Nat.le_of_eq hlength.symm)] at hmem
  obtain ⟨⟨a, b⟩, hzip, rfl⟩ := List.mem_map.1 hmem
  exact ⟨b, hzip⟩

namespace Value

variable {order : List Nat} {vs fields : List Value}

@[simp] theorem length_place : (place order vs fields).length = fields.length := by
  induction order generalizing vs fields with
  | nil => rfl
  | cons i order ih =>
    cases vs with
    | nil => rfl
    | cons v vs => rw [place, ih, List.length_set]

theorem getElem?_place_of_not_mem {i : Nat} (hi : i ∉ order) :
    (place order vs fields)[i]? = fields[i]? := by
  induction order generalizing vs fields with
  | nil => rfl
  | cons j order ih =>
    obtain ⟨hne, hrest⟩ : i ≠ j ∧ i ∉ order := by simpa using hi
    cases vs with
    | nil => rfl
    | cons v vs => rw [place, ih hrest, List.getElem?_set_ne (Ne.symm hne)]

/-- Each value stands in its place when no place is given twice. -/
theorem getElem?_place_of_mem_zip (hnodup : order.Nodup) (hrange : ∀ i ∈ order, i < fields.length)
    {i : Nat} {v : Value} (hmem : (i, v) ∈ order.zip vs) :
    (place order vs fields)[i]? = some v := by
  induction order generalizing vs fields with
  | nil => cases hmem
  | cons j order ih =>
    obtain ⟨hj, hnodup⟩ := List.nodup_cons.1 hnodup
    cases vs with
    | nil => cases hmem
    | cons w vs =>
      rw [place]
      rw [List.zip_cons_cons] at hmem
      rcases List.mem_cons.1 hmem with heq | hrest
      · obtain ⟨rfl, rfl⟩ := Prod.mk.inj heq
        rw [getElem?_place_of_not_mem hj, List.getElem?_set_self (hrange i (by simp))]
      · refine ih hnodup (fun k hk => ?_) hrest
        rw [List.length_set]
        exact hrange k (by simp [hk])

/-- Where values are put into all places in which a list differs from the fields, the list is what
    comes out. -/
theorem place_map_eq {ws : List Value} {value : Nat → Value} (hnodup : order.Nodup)
    (hrange : ∀ i ∈ order, i < fields.length) (hin : ∀ i ∈ order, ws[i]? = some (value i))
    (hout : ∀ i, i ∉ order → ws[i]? = fields[i]?) : place order (order.map value) fields = ws := by
  refine List.ext_getElem? fun i => ?_
  by_cases hi : i ∈ order
  · have hmem : (i, value i) ∈ order.zip (order.map value) := by
      rw [← List.map_prod_left_eq_zip]
      exact List.mem_map_of_mem hi
    rw [getElem?_place_of_mem_zip hnodup hrange hmem, hin i hi]
  · rw [getElem?_place_of_not_mem hi, hout i hi]

end Value

namespace Selection

variable (selection : Selection) (count : Nat)

@[simp] theorem order_all : (all count).order = List.range count :=
  rfl

@[simp] theorem length_blank : (selection.blank count).length = count := by
  rw [blank, List.length_map, List.length_range]

theorem getElem?_blank {i : Nat} (hi : i < count) :
    (selection.blank count)[i]? = some (selection.default i) := by
  rw [blank, List.getElem?_map, List.getElem?_range hi, Option.map_some]

/-- Each selected field holds the value that is put there, whatever its default is. -/
theorem getElem?_place_blank {vs : List Value} (hnodup : selection.order.Nodup)
    (hrange : ∀ i ∈ selection.order, i < count) {i : Nat} {v : Value}
    (hmem : (i, v) ∈ selection.order.zip vs) :
    (Value.place selection.order vs (selection.blank count))[i]? = some v :=
  Value.getElem?_place_of_mem_zip hnodup (by simpa using hrange) hmem

end Selection

end Scale
