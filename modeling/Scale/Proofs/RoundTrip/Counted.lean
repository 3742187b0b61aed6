import Scale.Proofs.RoundTrip.Parts
import Scale.Proofs.Value.Table

namespace Scale.Definitions

open Reader Writer

variable {ι : Type} {defs : Definitions ι Empty} {scheme : Scheme}

/-- Memory can hold as many items, and each of them is encoded to some bytes, unless it takes no
    memory. -/
structure Countable (defs : Definitions ι Empty) (scheme : Scheme) (item : Schema ι Empty)
    (vs : List Value) : Prop where
  fits : vs.length ≤ maxItems (item.size defs.layout)
  nonempty : item.size defs.layout ≠ 0 →
    ∀ v ∈ vs, ∀ bytes, defs.encodeFull scheme item v = .ok bytes → bytes ≠ #[]

theorem Countable.emits {item : Schema ι Empty} {vs : List Value}
    (hcount : defs.Countable scheme item vs) (hsize : item.size defs.layout ≠ 0) :
    ∀ v ∈ vs, ∀ bytes, Emits scheme (defs.write item v) bytes → bytes ≠ [] := by
  rintro v hv bytes hemits rfl
  exact hcount.nonempty hsize v hv #[] (defs.encodeFull_eq_ok_iff.2 hemits) rfl

theorem roundTrips_sequence {kind : SequenceKind} {item : Schema ι Empty} {vs : List Value}
    (hlimit : vs.length ≤ kind.limit) (hcount : defs.Countable scheme item vs)
    (hitems : ∀ v ∈ vs, defs.RoundTrips scheme item v) :
    defs.RoundTrips scheme (.sequence kind item) (.list vs) := by
  rw [RoundTrips, write_sequence, read_sequence, forget_sequence]
  exact (Restores.counted hlimit hcount.fits hcount.emits hitems).map Value.list

theorem roundTrips_set {keys : Keying} {item : Schema ι Empty} {vs : List Value}
    (hsorted : vs.Pairwise fun v w => keys.order.cmp v w = .lt) (hcount : defs.Countable scheme item vs)
    (hkeys : ∀ v ∈ vs, defs.forget item v = v)
    (hitems : ∀ v ∈ vs, defs.RoundTrips scheme item v) :
    defs.RoundTrips scheme (.set keys item) (.list vs) := by
  have hforget : vs.map (defs.forget item) = vs :=
    (List.map_congr_left hkeys).trans (List.map_id vs)
  have hlimit := Nat.le_trans hcount.fits (maxItems_le_maxCount _)
  have hread := Restores.counted hlimit hcount.fits hcount.emits hitems
  rw [RoundTrips, write_set, read_set, forget_set, hforget]
  rw [hforget] at hread
  refine hread.finish ?_
  rw [KeyOrder.set, setOfList_of_sorted hsorted]

/-- An entry of a map is written like a pair. -/
theorem write_pair (key value : Schema ι Empty) (k w : Value) :
    defs.write (.tuple [key, value]) (.list [k, w]) = (do
      defs.write key k
      defs.write value w) := by
  rw [write_tuple_cons, write_tuple_cons, write_tuple_nil]
  refine congrArg (defs.write key k >>= ·) (funext fun _ => ?_)
  exact bind_pure (defs.write value w)

theorem roundTrips_map {keys : Keying} {key value : Schema ι Empty}
    {entries : List (Value × Value)}
    (hsorted : entries.Pairwise fun first second => keys.order.cmp first.1 second.1 = .lt)
    (hcount : defs.Countable scheme (.tuple [key, value])
      (entries.map fun entry => .list [entry.1, entry.2]))
    (hkeys : ∀ entry ∈ entries, defs.forget key entry.1 = entry.1)
    (hentries : ∀ entry ∈ entries,
      defs.RoundTrips scheme key entry.1 ∧ defs.RoundTrips scheme value entry.2) :
    defs.RoundTrips scheme (.map keys key value)
      (.list (entries.map fun entry => .list [entry.1, entry.2])) := by
  -- Keys stay as they are, so the entries that are read are sorted like those that were written.
  let forgotten (entry : Value × Value) := (entry.1, defs.forget value entry.2)
  have hitems : ∀ entry ∈ entries, Restores scheme
      (do defs.write key entry.1; defs.write value entry.2)
      (do
        let k ← defs.read key
        let w ← defs.read value
        return (k, w)) (forgotten entry) := by
    intro entry hentry
    obtain ⟨hkey, hvalue⟩ := hentries entry hentry
    rw [RoundTrips, hkeys entry hentry] at hkey
    exact hkey.bind (hvalue.map (Prod.mk entry.1))
  have hfits : entries.length ≤ maxItems ((Schema.tuple [key, value]).size defs.layout) := by
    simpa using hcount.fits
  have hlimit := Nat.le_trans hfits (maxItems_le_maxCount _)
  have hread := Restores.counted hlimit hfits (fun hsize entry hentry bytes hemits => by
    rw [← write_pair] at hemits
    exact hcount.emits hsize _ (List.mem_map_of_mem hentry) bytes hemits) hitems
  have hforget : entries.map (fun entry =>
      Value.list [defs.forget key entry.1, defs.forget value entry.2]) =
        (entries.map forgotten).map fun entry => .list [entry.1, entry.2] := by
    rw [List.map_map]
    refine List.map_congr_left fun entry hentry => ?_
    rw [hkeys entry hentry]
    rfl
  have hplaced : keys.order.mapOfEntries (entries.map forgotten) = entries.map forgotten :=
    mapOfEntries_of_sorted (List.pairwise_map.2 hsorted)
  rw [RoundTrips, write_map, read_map, forget_map, hforget]
  refine hread.finish ?_
  rw [KeyOrder.map, hplaced]

end Scale.Definitions
