import Scale.Proofs.Reading.Congruence

namespace Scale

namespace Reader

variable {α β : Type}

/-- What a step leaves behind, whether it succeeds or not. -/
def remainder (step : Reader α) (source : Source) : Source :=
  match step source with
  | .ok _ rest => rest
  | .error _ rest => rest

/-- A step takes bytes off the front of a source and changes nothing else. -/
def TakesPrefix (step : Reader α) : Prop :=
  ∀ source, ∃ taken rest, source.bytes = taken ++ rest ∧
    remainder step source = source.withBytes rest

theorem TakesPrefix.of_remainder_eq {step : Reader α}
    (hstep : ∀ source, remainder step source = source) : TakesPrefix step := by
  intro source
  exact ⟨[], source.bytes, rfl, by rw [hstep, Source.withBytes_bytes]⟩

theorem TakesPrefix.pure (a : α) : TakesPrefix (Pure.pure a : Reader α) :=
  of_remainder_eq fun _ => rfl

theorem TakesPrefix.throw (e : DecodeError) : TakesPrefix (MonadExcept.throw e : Reader α) :=
  of_remainder_eq fun _ => rfl

theorem TakesPrefix.bind {step : Reader α} {next : α → Reader β} (hstep : TakesPrefix step)
    (hnext : ∀ a, TakesPrefix (next a)) : TakesPrefix (step >>= next) := by
  intro source
  obtain ⟨taken, rest, hbytes, hrest⟩ := hstep source
  cases hrun : step source with
  | error e middle =>
    refine ⟨taken, rest, hbytes, ?_⟩
    rw [remainder, Step.bind_of_error hrun]
    simpa only [remainder, hrun] using hrest
  | ok a middle =>
    have hmiddle : middle = source.withBytes rest := by simpa only [remainder, hrun] using hrest
    obtain ⟨more, left, hmore, hleft⟩ := hnext a middle
    rw [hmiddle, Source.bytes_withBytes] at hmore
    refine ⟨taken ++ more, left, by rw [hbytes, hmore, List.append_assoc], ?_⟩
    rw [remainder, Step.bind_of_ok hrun, ← remainder, hleft, hmiddle, Source.withBytes_withBytes]

theorem TakesPrefix.of_demands {step : Reader α} {amount used : Nat} {value : List UInt8 → α}
    (hstep : Demands step amount used value) : TakesPrefix step := by
  intro source
  by_cases hle : amount ≤ source.bytes.length
  · refine ⟨source.bytes.take used, source.bytes.drop used, by rw [List.take_append_drop], ?_⟩
    rw [remainder, hstep.ok hle]
  · refine ⟨[], source.bytes, rfl, ?_⟩
    rw [remainder, hstep.error (Nat.not_le.1 hle), Source.withBytes_bytes]

theorem takesPrefix_congruence : Congruence fun {_} step _ => TakesPrefix step where
  pure := TakesPrefix.pure
  throw := TakesPrefix.throw
  bind := TakesPrefix.bind
  takeByte := TakesPrefix.of_demands demands_takeByte
  read amount := TakesPrefix.of_demands (demands_read amount)
  need amount := TakesPrefix.of_demands (demands_need amount)
  scheme := TakesPrefix.of_remainder_eq fun _ => rfl

theorem TakesPrefix.readWith {ι : Type} {named : ι → Layout} {self : ι → Reader Value}
    (hself : ∀ name, TakesPrefix (self name)) (s : Schema ι Empty) :
    TakesPrefix (s.readWith named self) :=
  @Congruence.readWith _ takesPrefix_congruence ι named self self hself s

theorem TakesPrefix.readNth {ι : Type} {named : ι → Layout} {self : ι → Reader Value}
    (hself : ∀ name, TakesPrefix (self name)) (fields : List (Schema ι Empty)) (i : Nat) :
    TakesPrefix (Schema.readNth named self fields i) := by
  rw [Schema.readNth_eq]
  cases fields[i]? with
  | none => exact TakesPrefix.throw _
  | some field => exact TakesPrefix.readWith hself field

theorem TakesPrefix.readMany {item : Reader α} (hitem : TakesPrefix item) (n : Nat) :
    TakesPrefix (readMany n item) :=
  @Congruence.readMany _ takesPrefix_congruence α item item hitem n

theorem TakesPrefix.mapM {step : α → Reader β} {items : List α}
    (hstep : ∀ a ∈ items, TakesPrefix (step a)) : TakesPrefix (items.mapM step) :=
  @Congruence.mapM _ takesPrefix_congruence α β step step items hstep

end Reader

namespace Definitions

variable {ι : Type} (defs : Definitions ι Empty)

theorem read_apply (s : Schema ι Empty) (source : Source) :
    defs.read s source = s.readWith defs.layout (defs.readRef (source.remaining + 1)) source :=
  rfl

theorem takesPrefix_readRef (depth : Nat) (name : ι) : Reader.TakesPrefix (defs.readRef depth name) := by
  induction depth generalizing name with
  | zero => exact Reader.TakesPrefix.of_remainder_eq fun _ => rfl
  | succ depth ih => exact Reader.TakesPrefix.readWith ih _

theorem takesPrefix_read (s : Schema ι Empty) : Reader.TakesPrefix (defs.read s) := by
  intro source
  exact Reader.TakesPrefix.readWith (defs.takesPrefix_readRef _) s source

end Definitions

end Scale
