import Scale.Decode
import Scale.Proofs.Value.Parts

namespace Scale

variable {ι ω : Type}

namespace Schema

/-- What a declaration of a type makes sure of: coded fields are declared fields, none of them coded
    twice; one byte can tell the alternatives of a sum apart; named integers differ from each other
    and, like the ends of a range, belong to the underlying integer type. -/
def Admissible : Schema ι ω → Prop
  | record _ selection fields => selection.order.Nodup ∧ ∀ i ∈ selection.order, i < fields.length
  | sum _ alternatives => alternatives.length ≤ 256
  | enumeration e =>
    (e.alternatives.map (·.2)).Nodup ∧ ∀ alternative ∈ e.alternatives, e.repr.contains alternative.2
  | range r => r.repr.contains r.low ∧ r.repr.contains r.high
  | _ => True

/-- Whether a value has the form that the schema asks for, its parts aside. -/
def Admits : Schema ι ω → Value → Prop
  | unit, v => v = .unit
  | bool, .bool _ => True
  | int t, .int n => t.contains n
  | wide width, .int n => 0 ≤ n ∧ n < 256 ^ width
  | compact t, .int n => t.contains n
  | text, .text _ => True
  | blob, .blob _ => True
  | bits, .bits _ => True
  | option _, .absent => True
  | option _, .present _ => True
  | result _ _, .tagged i _ => i < 2
  | sequence kind _, .list vs => vs.length ≤ kind.limit
  | set keys _, .list vs => vs.Pairwise fun v w => keys.order.cmp v w = .lt
  | map keys _ _, .list vs => ∃ entries : List (Value × Value),
    vs = entries.map (fun entry => .list [entry.1, entry.2]) ∧
      entries.Pairwise fun first second => keys.order.cmp first.1 second.1 = .lt
  | array count _, .list vs => vs.length = count
  | tuple items, .list vs => vs.length = items.length
  | pointer _, _ => True
  | weak _ _, _ => True
  | encoded _, .blob _ => True
  | record _ _ fields, .list vs => vs.length = fields.length
  | sum _ alternatives, .tagged i _ => i < alternatives.length
  | enumeration e, .tagged i payload => i < e.alternatives.length ∧ payload = .unit
  | range r, .int n => r.low ≤ n ∧ n ≤ r.high
  | ref _, _ => True
  | _, _ => False

end Schema

namespace Definitions

variable (defs : Definitions ι ω)

/-- All types in a schema are such as can be declared. -/
def WellFormed (s : Schema ι ω) : Prop :=
  ∀ t, defs.Occurs s t → t.Admissible

/-- A value has the form that its schema asks for, and so has everything within it. -/
def HasType (s : Schema ι ω) (v : Value) : Prop :=
  ∀ t w, defs.Within s v t w → t.Admits w

variable {defs}

theorem hasType_int {t : FixedInt} {n : Int} (hn : t.contains n = true) :
    defs.HasType (.int t) (.int n) :=
  forall_within_of_parts hn nofun

end Definitions

end Scale
