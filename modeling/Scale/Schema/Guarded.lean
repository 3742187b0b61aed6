import Scale.Schema.Basic

namespace Scale.Schema

variable {ι ω : Type}

mutual

/-- Whether every value takes at least one byte on the wire. Recursive types are not looked
    into. -/
def leads : Schema ι ω → Bool
  | unit => false
  | wide width => width != 0
  | array count item => count != 0 && item.leads
  | tuple items => anyLeads items
  | pointer pointee => pointee.leads
  | weak _ pointee => pointee.leads
  | encoded _ => false
  | record _ selection fields => selection.order.any fun i => leadsAt fields i
  | ref _ => false
  | _ => true

/-- Whether one of the items takes a byte. -/
def anyLeads : List (Schema ι ω) → Bool
  | [] => false
  | s :: ss => s.leads || anyLeads ss

/-- Whether the item at an index takes a byte. -/
def leadsAt : List (Schema ι ω) → Nat → Bool
  | [], _ => false
  | s :: _, 0 => s.leads
  | _ :: ss, i + 1 => leadsAt ss i

end

/-- Whether, in a list of steps that each take a byte or not and are guarded or not, no unguarded
    step comes before the first byte. -/
def guardedSteps : List (Bool × Bool) → Bool
  | [] => true
  | (leads, guarded) :: rest => guarded && (leads || guardedSteps rest)

mutual

/-- Whether a byte is taken before any recursive type is met. -/
def guarded : Schema ι ω → Bool
  | array _ item => item.guarded
  | tuple items => guardedSteps (steps items)
  | pointer pointee => pointee.guarded
  | weak _ pointee => pointee.guarded
  | record _ selection fields => guardedSteps (selection.order.filterMap fun i => (steps fields)[i]?)
  | ref _ => false
  | _ => true

/-- For each schema whether it takes a byte and whether it is guarded. -/
def steps : List (Schema ι ω) → List (Bool × Bool)
  | [] => []
  | s :: ss => (s.leads, s.guarded) :: steps ss

end

end Scale.Schema
