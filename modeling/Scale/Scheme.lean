namespace Scale

/-- A layout for compact integers. -/
inductive Scheme where
  /-- Four tiers chosen by the low two bits of the first byte, up to `2 ^ 536 - 1`. -/
  | classic
  /-- A unary length in the high bits of the first byte, up to `2 ^ 64 - 1`. -/
  | jam
  deriving DecidableEq, Repr, Inhabited

end Scale
