namespace Scale

/-- Powers with natural exponents are those that come with the base type itself, whichever other
    powers are in scope, so that a power means the same in every module. -/
@[default_instance 20000]
instance (priority := 2000) powOfNatPow {α : Type} [NatPow α] : Pow α Nat :=
  instPowNat

end Scale
