import Scale.Schema.Guarded
import Scale.Schema.Layout

namespace Scale

/-- What the names of types stand for. A definition takes a byte before it comes to a named type
    again, so that reading it comes to an end. -/
structure Definitions (ι ω : Type) where
  /-- The schema of a named type. -/
  body : ι → Schema ι ω
  /-- Its place in memory. A declaration may ask for another one than that of its schema. -/
  layout : ι → Layout
  guarded_body : ∀ i, (body i).guarded = true

/-- No named types. -/
def Definitions.none {ω : Type} : Definitions Empty ω where
  body i := i.elim
  layout i := i.elim
  guarded_body i := i.elim

end Scale
