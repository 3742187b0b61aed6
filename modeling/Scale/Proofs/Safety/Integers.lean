import Scale.Enumeration
import Scale.Proofs.Compact.Integer
import Scale.Proofs.Safety.Classic
import Scale.Proofs.Safety.Jam
import Scale.WideUInt

namespace Scale.Checked

/-- Writes digits with the scheme of the sink. -/
def putDigits (digits : Digits) : Writing Unit := do
  match ← lift Writer.scheme with
  | .classic => Classic.put digits
  | .jam => Jam.put digits

/-- Reads digits with the scheme of the source. -/
def takeDigits : Reading Digits := do
  match ← lift Reader.scheme with
  | .classic => Classic.take
  | .jam => Jam.take

/-- The digits of a number of a type, which must not be negative. -/
def toDigits (t : IntegerType) (n : Int) : Writing Digits :=
  if n < 0 then
    throw (.refused .negativeInteger)
  else
    match t.native? with
    | none => check (trim (bytesOfBig n.toNat))
    | some _ => check (do digitsOf (← Word.narrow 128 n.toNat))

/-- The number of a type that digits spell. -/
def ofDigits (t : IntegerType) (digits : Digits) : Reading Int :=
  match t.native? with
  | none => return digits.toNat
  | some native => do
    match ← check (toNative? digits) with
    | none => throw (.refused .decodedValueOverflowsTarget)
    | some n =>
      if native.contains n then return n else throw (.refused .decodedValueOverflowsTarget)

/-- Writes a number of a type compactly. -/
def putCompact (t : IntegerType) (n : Int) : Writing Unit := do
  putDigits (← toDigits t n)

/-- Reads a compact number of a type. -/
def takeCompact (t : IntegerType) : Reading Int := do
  ofDigits t (← takeDigits)

/-- Writes a number in the width of a type, which has to hold it. -/
def putFixed (t : FixedInt) (n : Int) : Writing Unit :=
  if t.contains n then lift (t.put n) else throw (.fault .lostBit)

/-- Reads a number in the width of a type. -/
def takeFixed (t : FixedInt) : Reading Int := do
  return t.ofBytes (← readInto (List.replicate t.bytes 0))

/-- Bytes in another number, filled up with zeros. Nothing else than zeros may be cut off. -/
def resize (bytes : List UInt8) (size : Nat) : Except Fault (List UInt8) :=
  if ofLittleEndian (bytes.drop size) = 0 then
    .ok (bytes.take size ++ List.replicate (size - bytes.length) 0)
  else
    .error .lostBit

/-- Writes a number in a width beyond the native ones. -/
def putWide (width n : Nat) : Writing Unit := do
  let bytes ← check (resize (bytesOfBig n) width)
  lift (Writer.putSpan bytes)

/-- Reads a number in a width beyond the native ones. -/
def takeWide (width : Nat) : Reading Nat := do
  return ofLittleEndian (← readInto (List.replicate width 0))

/-- Reads an integer, which has to be that of a value. -/
def takeCoded {α : Type} (coding : IntegerCoding α) : Reading α := do
  match coding.ofRepr? (← takeFixed coding.repr) with
  | some a => return a
  | none => throw (.refused .invalidEnumValue)

theorem putDigits_eq (digits : Digits) : putDigits digits = lift (Writer.putDigits digits) := by
  refine lift_bind_congr fun {_ scheme _} _ => ?_
  cases scheme with
  | classic => exact Classic.put_eq digits
  | jam => exact Jam.put_eq digits

theorem takeDigits_eq : takeDigits = lift Reader.takeDigits := by
  refine lift_bind_congr fun {_ scheme _} _ => ?_
  cases scheme with
  | classic => exact Classic.take_eq
  | jam => exact Jam.take_eq

theorem toDigits_eq {t : IntegerType} {n : Int} (hcontains : t.contains n = true) :
    toDigits t n = lift (MonadExcept.ofExcept (IntegerType.toDigits n)) := by
  unfold toDigits IntegerType.toDigits
  by_cases hneg : n < 0
  · rw [if_pos hneg, if_pos hneg]
    rfl
  · rw [if_neg hneg, if_neg hneg]
    cases hnative : t.native? with
    | none =>
      dsimp only
      rw [trim_bytesOfBig]
      rfl
    | some native =>
      have hcast : ((n.toNat : Nat) : Int) = n := Int.toNat_of_nonneg (Int.not_lt.1 hneg)
      rw [IntegerType.contains_native hnative, ← hcast] at hcontains
      have hword : n.toNat < 2 ^ 128 := IntegerType.contains_fixed_bounds hcontains
      dsimp only
      rw [Word.narrow_of_lt hword, ok_bind, digitsOf_eq hword]
      rfl

theorem ofDigits_eq (t : IntegerType) (digits : Digits) :
    ofDigits t digits = lift (MonadExcept.ofExcept (t.ofDigits digits)) := by
  unfold ofDigits IntegerType.ofDigits
  cases t.native? with
  | none => rfl
  | some native =>
    dsimp only
    rw [toNative?_eq, check_ok, pure_bind]
    cases digits.toNative? with
    | none => rfl
    | some n =>
      dsimp only
      split <;> rfl

theorem putCompact_eq {t : IntegerType} {n : Int} (hcontains : t.contains n = true) :
    putCompact t n = lift (Writer.putCompact n) := by
  rw [putCompact, toDigits_eq hcontains]
  exact lift_bind_congr fun {_ digits _} _ => putDigits_eq digits

theorem takeCompact_eq (t : IntegerType) : takeCompact t = lift (Reader.takeCompact t) := by
  rw [takeCompact, takeDigits_eq]
  exact lift_bind_congr fun {_ digits _} _ => ofDigits_eq t digits

theorem putFixed_eq {t : FixedInt} {n : Int} (hcontains : t.contains n = true) :
    putFixed t n = lift (t.put n) :=
  if_pos hcontains

theorem takeFixed_eq (t : FixedInt) : takeFixed t = lift t.take := by
  rw [takeFixed, readInto_eq, List.length_replicate]
  exact lift_map _ _

/-- A number that fits loses nothing but zeros. -/
theorem resize_of_lt {bytes : List UInt8} {size : Nat} (hlt : ofLittleEndian bytes < 256 ^ size) :
    resize bytes size = .ok (littleEndian size (ofLittleEndian bytes)) := by
  have hsplit := ofLittleEndian_append (bytes.take size) (bytes.drop size)
  rw [List.take_append_drop] at hsplit
  by_cases hshort : bytes.length ≤ size
  · have hdrop : bytes.drop size = [] := List.drop_of_length_le hshort
    have hfilled : (bytes ++ List.replicate (size - bytes.length) 0).length = size := by
      rw [List.length_append, List.length_replicate]
      omega
    have hnothing : ofLittleEndian (bytes.drop size) = 0 := by rw [hdrop]; rfl
    rw [resize, if_pos hnothing, List.take_of_length_le hshort,
      ← ofLittleEndian_append_zeros bytes (size - bytes.length),
      littleEndian_ofLittleEndian_of_length hfilled]
  · have htake : (bytes.take size).length = size := List.length_take_of_le (Nat.le_of_not_le hshort)
    rw [htake] at hsplit
    have hzero : ofLittleEndian (bytes.drop size) = 0 := by
      refine Nat.eq_zero_of_not_pos fun hpos => ?_
      have hle : 256 ^ size * 1 ≤ 256 ^ size * ofLittleEndian (bytes.drop size) :=
        Nat.mul_le_mul_left _ hpos
      omega
    rw [hzero, Nat.mul_zero, Nat.add_zero] at hsplit
    rw [resize, if_pos hzero, hsplit, littleEndian_ofLittleEndian_of_length htake,
      Nat.sub_eq_zero_of_le (Nat.le_of_not_le hshort), List.replicate_zero, List.append_nil]

theorem ofLittleEndian_bytesOfBig (n : Nat) : ofLittleEndian (bytesOfBig n) = n := by
  unfold bytesOfBig
  split
  · next hzero => rw [hzero]; rfl
  · exact Digits.toNat_ofNat n

theorem putWide_eq {width n : Nat} (hlt : n < 256 ^ width) :
    putWide width n = lift (Writer.putSpan (littleEndian width n)) := by
  rw [putWide, resize_of_lt (by rwa [ofLittleEndian_bytesOfBig]), ofLittleEndian_bytesOfBig, check_ok,
    pure_bind]

theorem takeWide_eq (width : Nat) : takeWide width = lift (do
    let n : WideUInt width ← WideUInt.take
    return n.val) := by
  rw [takeWide, readInto_eq, List.length_replicate, WideUInt.take, bind_assoc]
  refine lift_bind_congr fun {_ bytes _} hread => ?_
  have hall : bytes.take width = bytes :=
    List.take_of_length_le (Nat.le_of_eq (Reader.length_of_read hread))
  have hval : (WideUInt.ofBytes bytes : WideUInt width).val = ofLittleEndian bytes :=
    congrArg ofLittleEndian hall
  rw [pure_bind, hval]
  rfl

theorem takeCoded_eq {α : Type} (coding : IntegerCoding α) : takeCoded coding = lift coding.take := by
  rw [takeCoded, takeFixed_eq]
  refine lift_bind_congr fun {_ n _} _ => ?_
  cases coding.ofRepr? n <;> rfl

end Scale.Checked
