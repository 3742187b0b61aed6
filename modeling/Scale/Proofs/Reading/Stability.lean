import Scale.Proofs.Reading.Prefix

namespace Scale

namespace Source

/-- The same source with more bytes at its end. -/
def extend (more : List UInt8) (source : Source) : Source :=
  source.withBytes (source.bytes ++ more)

@[simp] theorem bytes_extend (more : List UInt8) (source : Source) :
    (source.extend more).bytes = source.bytes ++ more := by
  rw [extend, bytes_withBytes]

@[simp] theorem scheme_extend (more : List UInt8) (source : Source) :
    (source.extend more).scheme = source.scheme := by
  rw [extend, scheme_withBytes]

theorem withBytes_extend (rest more : List UInt8) (source : Source) :
    (source.extend more).withBytes (rest ++ more) = (source.withBytes rest).extend more := by
  rw [extend, extend, withBytes_withBytes, withBytes_withBytes, bytes_withBytes]

end Source

namespace Reader

variable {α β : Type} {source rest : Source} {more : List UInt8}

/-- The second step does on a longer source what the first one does on a source, unless the first
    one fails for lack of data. -/
structure Extends (more : List UInt8) (step step' : Reader α) : Prop where
  ok : ∀ {source rest : Source} {a : α}, step source = .ok a rest →
    step' (source.extend more) = .ok a (rest.extend more)
  error : ∀ {source rest : Source} {e : DecodeError}, step source = .error e rest →
    e ≠ .notEnoughData → step' (source.extend more) = .error e (rest.extend more)

theorem Extends.pure (a : α) : Extends more (Pure.pure a : Reader α) (Pure.pure a) where
  ok := by
    intro source rest b hrun
    obtain ⟨rfl, rfl⟩ := Step.pure_eq_ok_iff.1 hrun
    rfl
  error := by
    intro source rest e hrun
    cases hrun

theorem Extends.throw (e : DecodeError) :
    Extends more (MonadExcept.throw e : Reader α) (MonadExcept.throw e) where
  ok := by
    intro source rest a hrun
    cases hrun
  error := by
    intro source rest e' hrun _
    cases hrun
    rfl

/-- A step that fails for lack of data is extended by every other. -/
theorem Extends.of_throw (step : Reader α) :
    Extends more (MonadExcept.throw .notEnoughData : Reader α) step where
  ok := by
    intro source rest a hrun
    cases hrun
  error := by
    intro source rest e hrun hdata
    cases hrun
    exact absurd rfl hdata

theorem Extends.bind {step step' : Reader α} {next next' : α → Reader β}
    (hstep : Extends more step step') (hnext : ∀ a, Extends more (next a) (next' a)) :
    Extends more (step >>= next) (step' >>= next') where
  ok := by
    intro source rest b hrun
    obtain ⟨a, middle, hfirst, hsecond⟩ := Step.bind_eq_ok_iff.1 hrun
    rw [Step.bind_of_ok (hstep.ok hfirst), (hnext a).ok hsecond]
  error := by
    intro source rest e hrun hdata
    cases hfirst : step source with
    | ok a middle =>
      rw [Step.bind_of_ok hfirst] at hrun
      rw [Step.bind_of_ok (hstep.ok hfirst), (hnext a).error hrun hdata]
    | error e' middle =>
      rw [Step.bind_of_error hfirst] at hrun
      cases hrun
      rw [Step.bind_of_error (hstep.error hfirst hdata)]

theorem Extends.of_demands {step : Reader α} {amount used : Nat} {value : List UInt8 → α}
    (hstep : Demands step amount used value) : Extends more step step where
  ok := by
    intro source rest a hrun
    by_cases hle : amount ≤ source.bytes.length
    · rw [hstep.ok hle] at hrun
      obtain ⟨rfl, rfl⟩ := EStateM.Result.ok.inj hrun
      have hused : used ≤ source.bytes.length := Nat.le_trans hstep.used_le hle
      have hlonger : amount ≤ (source.extend more).bytes.length := by
        rw [Source.bytes_extend, List.length_append]
        omega
      rw [hstep.ok hlonger, Source.bytes_extend, List.take_append_of_le_length hused,
        List.drop_append_of_le_length hused, Source.withBytes_extend]
    · rw [hstep.error (Nat.not_le.1 hle)] at hrun
      cases hrun
  error := by
    intro source rest e hrun hdata
    by_cases hle : amount ≤ source.bytes.length
    · rw [hstep.ok hle] at hrun
      cases hrun
    · rw [hstep.error (Nat.not_le.1 hle)] at hrun
      cases hrun
      exact absurd rfl hdata

theorem Extends.scheme : Extends more scheme scheme where
  ok := by
    intro source rest scheme hrun
    cases hrun
    exact congrArg (EStateM.Result.ok · (source.extend more)) (source.scheme_extend more)
  error := by
    intro source rest e hrun
    cases hrun

theorem extends_congruence (more : List UInt8) :
    Congruence fun {_} step step' => Extends more step step' where
  pure := Extends.pure
  throw := Extends.throw
  bind := Extends.bind
  takeByte := Extends.of_demands demands_takeByte
  read amount := Extends.of_demands (demands_read amount)
  need amount := Extends.of_demands (demands_need amount)
  scheme := Extends.scheme

end Reader

namespace Definitions

variable {ι : Type} (defs : Definitions ι Empty)

/-- A bound on the depth of calls that is too small shows as a lack of data, so that a greater one
    extends it. -/
theorem extends_readRef (more : List UInt8) {depth depth' : Nat} (hdepth : depth ≤ depth')
    (name : ι) : Reader.Extends more (defs.readRef depth name) (defs.readRef depth' name) := by
  induction depth generalizing depth' name with
  | zero => exact Reader.Extends.of_throw _
  | succ depth ih =>
    cases depth' with
    | zero => exact absurd hdepth (Nat.not_succ_le_zero depth)
    | succ depth' =>
      exact (Reader.extends_congruence more).readWith (ih (Nat.le_of_succ_le_succ hdepth)) _

theorem extends_read (more : List UInt8) (s : Schema ι Empty) :
    Reader.Extends more (defs.read s) (defs.read s) := by
  have hextends : ∀ source : Source, Reader.Extends more
      (s.readWith defs.layout (defs.readRef (source.remaining + 1)))
      (s.readWith defs.layout (defs.readRef ((source.extend more).remaining + 1))) := by
    intro source
    refine (Reader.extends_congruence more).readWith (defs.extends_readRef more ?_) s
    rw [Source.remaining_eq, Source.remaining_eq, Source.bytes_extend, List.length_append]
    omega
  constructor
  · intro source rest v hrun
    exact (hextends source).ok hrun
  · intro source rest e hrun hdata
    exact (hextends source).error hrun hdata

/-- A value is read from the same bytes when more follow, and a refusal that is not for lack of data
    stays the same too. So a source that ends within a value is refused for lack of data. -/
theorem read_stable (s : Schema ι Empty) (source : Source) :
    (∀ v rest, defs.read s source = .ok v rest → ∃ taken, source.bytes = taken ++ rest.bytes ∧
      (∀ more, defs.read s (source.extend more) = .ok v (rest.extend more)) ∧
      ∀ start, start <+: taken → start ≠ taken →
        ∃ left, defs.read s (source.withBytes start) = .error .notEnoughData left) ∧
    ∀ e rest, defs.read s source = .error e rest → ∃ taken, source.bytes = taken ++ rest.bytes ∧
      (e ≠ .notEnoughData →
        ∀ more, defs.read s (source.extend more) = .error e (rest.extend more)) := by
  obtain ⟨taken, left, hbytes, hleft⟩ := defs.takesPrefix_read s source
  constructor
  · intro v rest hrun
    have hrest : rest = source.withBytes left := by simpa only [Reader.remainder, hrun] using hleft
    have hleftover : rest.bytes = left := by rw [hrest, Source.bytes_withBytes]
    refine ⟨taken, by rw [hbytes, hleftover], fun more => (defs.extends_read more s).ok hrun, ?_⟩
    rintro start ⟨missing, rfl⟩ hne
    -- The whole source is the shortened one extended by the missing bytes and the rest.
    have hsource : (source.withBytes start).extend (missing ++ left) = source := by
      rw [Source.extend, Source.bytes_withBytes, Source.withBytes_withBytes, ← List.append_assoc,
        ← hbytes, Source.withBytes_bytes]
    have hextends := defs.extends_read (missing ++ left) s
    cases hshort : defs.read s (source.withBytes start) with
    | ok w after =>
      have hlong := hextends.ok hshort
      rw [hsource, hrun] at hlong
      obtain ⟨_, hafter⟩ := EStateM.Result.ok.inj hlong
      have hlength := congrArg (fun source : Source => source.bytes.length) hafter
      simp only [hleftover, Source.bytes_extend, List.length_append] at hlength
      have hmissing : missing ≠ [] := by
        rintro rfl
        exact hne (List.append_nil start).symm
      have hpos := List.length_pos_iff.2 hmissing
      omega
    | error e after =>
      by_cases hdata : e = .notEnoughData
      · exact ⟨after, by rw [hdata]⟩
      · have hlong := hextends.error hshort hdata
        rw [hsource, hrun] at hlong
        cases hlong
  · intro e rest hrun
    have hrest : rest = source.withBytes left := by simpa only [Reader.remainder, hrun] using hleft
    refine ⟨taken, by rw [hbytes, hrest, Source.bytes_withBytes], fun hdata more => ?_⟩
    exact (defs.extends_read more s).error hrun hdata

end Definitions

end Scale
