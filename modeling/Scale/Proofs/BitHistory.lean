import Scale.BitSeq.Lemmas
import Scale.Proofs.Reading.Typing
import Scale.Proofs.RoundTrip.Steps
import Scale.Proofs.Writing.Equations

namespace Scale

namespace PackedBits

/-- There are just the bytes that the bits need. Bit `i` of the list is bit `i % 8` of byte `i / 8`, and
    all others are clear. -/
def Packs (bytes : List UInt8) (xs : List Bool) : Prop :=
  bytes.length = byteCount xs.length ∧ ∀ i, bit bytes i = xs.getD i false

theorem Packs.bytes_unique {bytes bytes' : List UInt8} {xs : List Bool} (hbytes : Packs bytes xs)
    (hbytes' : Packs bytes' xs) : bytes = bytes' :=
  bytes_ext (hbytes.1.trans hbytes'.1.symm) fun i => (hbytes.2 i).trans (hbytes'.2 i).symm

end PackedBits

open PackedBits

namespace BitSeq

theorem packs_toList (bits : BitSeq) : Packs bits.bytes bits.toList := by
  refine ⟨by rw [length_toList, bits.length_bytes], fun i => ?_⟩
  rw [List.getD_eq_getElem?_getD, getElem?_toList, get?]
  by_cases hi : i < bits.length
  · rw [if_pos hi, Option.getD_some]
  · rw [if_neg hi, bits.bit_padding i (Nat.not_lt.1 hi), Option.getD_none]

theorem emits_put_iff {scheme : Scheme} {bits : BitSeq} {bytes : List UInt8} :
    Writer.Emits scheme bits.put bytes ↔
      bits.length < scheme.capacity ∧ bytes = scheme.spelling bits.length ++ bits.bytes := by
  constructor
  · intro hemits
    obtain ⟨count, payload, rfl, hcount, hpayload⟩ :=
      hemits.of_seq (Writer.Uniform.putCount _) (Writer.Uniform.putSpan _)
    obtain ⟨hlt, rfl⟩ := Writer.emits_putCount_iff.1 hcount
    exact ⟨hlt, by rw [hpayload.unique (Writer.Emits.putSpan bits.bytes)]⟩
  · rintro ⟨hlt, rfl⟩
    exact (Writer.emits_putCount_iff.2 ⟨hlt, rfl⟩).bind (Writer.Emits.putSpan bits.bytes)

theorem take_eq_ok_iff {source after : Source} {bits : BitSeq} :
    take source = .ok bits after ↔ bits.length ≤ maxItems 1 ∧ ∃ rest,
      source.bytes = source.scheme.spelling bits.length ++ (bits.bytes ++ rest) ∧
        after = source.withBytes rest := by
  constructor
  · intro hrun
    obtain ⟨bytes, rest, hemits, hbytes, rfl⟩ := Reader.canonical_takeBits hrun
    obtain ⟨_, rfl⟩ := emits_put_iff.1 hemits
    exact ⟨Reader.length_of_takeBits hrun, rest, by rw [hbytes, List.append_assoc], rfl⟩
  · rintro ⟨hmemory, rest, hbytes, rfl⟩
    have hlt : bits.length < source.scheme.capacity :=
      Scheme.lt_capacity_of_lt (Nat.lt_of_le_of_lt hmemory (by decide))
    exact (Restores.putBits hmemory).yields (emits_put_iff.2 ⟨hlt, rfl⟩) source rest rfl
      (by rw [hbytes, List.append_assoc])

/-- What can be done to a bit sequence. -/
inductive Operation where
  /-- A new one, without bits, takes its place. -/
  | new
  /-- So many copies of a bit take its place. -/
  | replicate (count : Nat) (value : Bool)
  /-- The given bits take its place. -/
  | ofList (values : List Bool)
  | push (value : Bool)
  | pop
  | set (i : Nat) (value : Bool)
  | clear
  /-- The given bits are appended. -/
  | extend (values : List Bool)
  /-- What is read off the source takes its place, when that succeeds. -/
  | read (source : Source)

/-- What an operation hands out. -/
inductive Answer where
  | done
  | popped (last : Option Bool)
  /-- There is no bit to set. -/
  | outside (e : BitIndexError)
  /-- The bits have been read, and so much is left of the source. -/
  | read (after : Source)
  | refused (e : DecodeError)

namespace Operation

/-- Does the operation to a bit sequence. -/
def run : Operation → BitSeq → Answer × BitSeq
  | new, _ => (.done, .empty)
  | replicate count value, _ => (.done, .replicate count value)
  | ofList values, _ => (.done, .ofList values)
  | push value, bits => (.done, bits.push value)
  | pop, bits =>
    match bits.pop? with
    | some (last, bits) => (.popped (some last), bits)
    | none => (.popped none, bits)
  | set i value, bits =>
    match bits.set? i value with
    | .ok bits => (.done, bits)
    | .error e => (.outside e, bits)
  | clear, _ => (.done, .empty)
  | extend values, bits => (.done, bits.append values)
  | read source, bits =>
    match BitSeq.take source with
    | .ok bits after => (.read after, bits)
    | .error e _ => (.refused e, bits)

/-- The bits are there to be read: their number, which has to be small enough, and the bytes that pack
    them. -/
def Holds (source : Source) (xs : List Bool) (after : Source) : Prop :=
  xs.length ≤ maxItems 1 ∧ ∃ payload rest, Packs payload xs ∧
    source.bytes = source.scheme.spelling xs.length ++ (payload ++ rest) ∧
      after = source.withBytes rest

/-- What the operation does to a list of bits. -/
inductive OnList : Operation → List Bool → Answer → List Bool → Prop where
  | new {xs} : OnList new xs .done []
  | replicate {count value xs} : OnList (replicate count value) xs .done (List.replicate count value)
  | ofList {values xs} : OnList (ofList values) xs .done values
  | push {value xs} : OnList (push value) xs .done (xs ++ [value])
  | pop {xs} : OnList pop xs (.popped xs.getLast?) xs.dropLast
  | set {i value xs} : i < xs.length → OnList (set i value) xs .done (xs.set i value)
  | setOutside {i value xs} : xs.length ≤ i → OnList (set i value) xs (.outside ⟨i, xs.length⟩) xs
  | clear {xs} : OnList clear xs .done []
  | extend {values xs} : OnList (extend values) xs .done (xs ++ values)
  | read {source ys after xs} : Holds source ys after → OnList (read source) xs (.read after) ys
  | refuse {source e xs} : (∀ ys after, ¬ Holds source ys after) →
    OnList (read source) xs (.refused e) xs

/-- Bits are read just where they are there. -/
theorem holds_iff {source after : Source} {xs : List Bool} :
    Holds source xs after ↔ ∃ bits, BitSeq.take source = .ok bits after ∧ bits.toList = xs := by
  constructor
  · rintro ⟨hmemory, payload, rest, hpacks, hbytes, rfl⟩
    have hself := packs_toList (BitSeq.ofList xs)
    have hlength : (BitSeq.ofList xs).length = xs.length := by rw [← length_toList, toList_ofList]
    rw [toList_ofList] at hself
    rw [hpacks.bytes_unique hself] at hbytes
    refine ⟨BitSeq.ofList xs, take_eq_ok_iff.2 ?_, toList_ofList xs⟩
    rw [hlength]
    exact ⟨hmemory, rest, hbytes, rfl⟩
  · rintro ⟨bits, hrun, rfl⟩
    obtain ⟨hmemory, rest, hbytes, hafter⟩ := take_eq_ok_iff.1 hrun
    rw [Holds, length_toList]
    exact ⟨hmemory, bits.bytes, rest, bits.packs_toList, hbytes, hafter⟩

/-- An operation does to a bit sequence what it does to its bits. -/
theorem onList_run (operation : Operation) (bits : BitSeq) :
    OnList operation bits.toList (operation.run bits).1 (operation.run bits).2.toList := by
  cases operation with
  | new => exact .new
  | replicate count value =>
    rw [run, toList_replicate]
    exact .replicate
  | ofList values =>
    rw [run, toList_ofList]
    exact .ofList
  | push value =>
    rw [run, toList_push]
    exact .push
  | pop =>
    have hpop : OnList pop bits.toList (.popped bits.toList.getLast?) bits.toList.dropLast := .pop
    rw [run, pop?_eq]
    cases hlast : bits.toList.getLast? with
    | none =>
      have hnil := List.getLast?_eq_none_iff.1 hlast
      rw [hlast, hnil] at hpop
      rw [hnil]
      simp only [Option.map_none, hnil]
      exact hpop
    | some last =>
      rw [hlast, ← toList_dropLast] at hpop
      exact hpop
  | set i value =>
    rw [run, set?]
    by_cases hi : i < bits.length
    · rw [dif_pos hi]
      dsimp only
      rw [toList_set]
      exact .set (by rwa [length_toList])
    · rw [dif_neg hi]
      have houtside :
          OnList (.set i value) bits.toList (.outside ⟨i, bits.toList.length⟩) bits.toList :=
        .setOutside (by rw [length_toList]; exact Nat.not_lt.1 hi)
      rwa [length_toList] at houtside
  | clear => exact .clear
  | extend values =>
    rw [run, toList_append]
    exact .extend
  | read source =>
    rw [run]
    cases hrun : BitSeq.take source with
    | ok bits after => exact .read (holds_iff.2 ⟨bits, hrun, rfl⟩)
    | error e stopped =>
      refine .refuse fun ys after hholds => ?_
      obtain ⟨bits, hread, _⟩ := holds_iff.1 hholds
      cases hrun.symm.trans hread

/-- There is no choice in what an operation does to a list. -/
theorem OnList.unique {operation : Operation} {xs ys zs : List Bool} {answer other : Answer}
    (hys : OnList operation xs answer ys) (hzs : OnList operation xs other zs) : ys = zs := by
  cases hys with
  | set hi =>
    cases hzs with
    | set _ => rfl
    | setOutside hle => exact absurd hi (Nat.not_lt.2 hle)
  | setOutside hle =>
    cases hzs with
    | set hi => exact absurd hi (Nat.not_lt.2 hle)
    | setOutside _ => rfl
  | read hholds =>
    cases hzs with
    | read hholds' =>
      obtain ⟨bits, hrun, rfl⟩ := holds_iff.1 hholds
      obtain ⟨others, hrun', rfl⟩ := holds_iff.1 hholds'
      rw [(EStateM.Result.ok.inj (hrun.symm.trans hrun')).1]
    | refuse hnone => exact absurd hholds (hnone _ _)
  | refuse hnone =>
    cases hzs with
    | read hholds => exact absurd hholds (hnone _ _)
    | refuse _ => rfl
  | _ =>
    cases hzs
    rfl

/-- Does one operation after the other. -/
def runAll : List Operation → BitSeq → List Answer × BitSeq
  | [], bits => ([], bits)
  | operation :: operations, bits =>
    let (answer, next) := operation.run bits
    let (answers, last) := runAll operations next
    (answer :: answers, last)

/-- What the operations do to a list of bits, one after the other. -/
inductive OnLists : List Operation → List Bool → List Answer → List Bool → Prop where
  | nil {xs} : OnLists [] xs [] xs
  | cons {operation operations answer answers xs ys zs} : OnList operation xs answer ys →
    OnLists operations ys answers zs →
    OnLists (operation :: operations) xs (answer :: answers) zs

theorem onLists_runAll (operations : List Operation) (bits : BitSeq) :
    OnLists operations bits.toList (runAll operations bits).1 (runAll operations bits).2.toList := by
  induction operations generalizing bits with
  | nil => exact .nil
  | cons operation operations ih => exact .cons (onList_run operation bits) (ih _)

theorem OnLists.unique {operations : List Operation} {xs ys zs : List Bool}
    {answers others : List Answer} (hys : OnLists operations xs answers ys)
    (hzs : OnLists operations xs others zs) : ys = zs := by
  induction hys generalizing others with
  | nil =>
    cases hzs
    rfl
  | cons hfirst _ ih =>
    cases hzs with
    | cons hfirst' hrest =>
      obtain rfl := hfirst.unique hfirst'
      exact ih hrest

end Operation

/-- The bits that come of doing the operations to a new sequence. -/
def ofHistory (operations : List Operation) : BitSeq :=
  (Operation.runAll operations .empty).2

/-- What comes of a new bit sequence by any operations is the packed form of the bits that come of an
    empty list by the same ones. It is looked at, compared and written by these bits, whatever the
    operations were. -/
theorem packed_whatever_history (operations : List Operation) :
    Operation.OnLists operations [] (Operation.runAll operations .empty).1
      (ofHistory operations).toList ∧
    (∀ answers xs, Operation.OnLists operations [] answers xs → xs = (ofHistory operations).toList) ∧
    Packs (ofHistory operations).bytes (ofHistory operations).toList ∧
    (ofHistory operations).length = (ofHistory operations).toList.length ∧
    (∀ i, (ofHistory operations).get? i = (ofHistory operations).toList[i]?) ∧
    (∀ others, ofHistory operations = ofHistory others ↔
      (ofHistory operations).toList = (ofHistory others).toList) ∧
    ∀ {ι ω : Type} (defs : Definitions ι ω) (scheme : Scheme),
      (ofHistory operations).length ≤ maxCount →
      defs.encodeFull scheme .bits (.bits (ofHistory operations)) =
        .ok (scheme.spelling (ofHistory operations).length ++ (ofHistory operations).bytes).toArray := by
  have hruns := Operation.onLists_runAll operations .empty
  refine ⟨hruns, fun _ _ hlists => hlists.unique hruns, packs_toList _, (length_toList _).symm,
    fun i => (getElem?_toList _ i).symm, fun others => toList_inj.symm, ?_⟩
  intro ι ω defs scheme hword
  have hlt : (ofHistory operations).length < scheme.capacity :=
    Scheme.lt_capacity_of_lt (Nat.lt_of_le_of_lt hword (by decide))
  refine defs.encodeFull_eq_ok_iff.2 ?_
  rw [← Definitions.writeWith_write]
  exact emits_put_iff.2 ⟨hlt, rfl⟩

example :
    (ofHistory [.replicate 17 true, .pop, .set 3 false, .push false, .pop]).bytes = [247, 255] := by
  decide

end BitSeq

end Scale
