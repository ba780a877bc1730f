import Synthesis.Cost.Basic
import Synthesis.Symbol

/-!
# What a symbol costs

The weight belongs to the symbol and not to a particular node. Holes weigh nothing, so a hole that
is still to be filled never makes a tree look more expensive than it will be; variables and literals
weigh nothing either, so among trees with the same operators the leaves do not matter.
-/

set_option autoImplicit false

namespace Synthesis

/-- Variables and literals are free, a negation weighs 1, a conditional 1.2 and every operator with
two operands 1.1. -/
def Operator.weight : Operator → Cost
  | .atom _ => 0
  | .not => .ofTenths 10
  | .binary _ => .ofTenths 11
  | .ite => .ofTenths 12

/-- Holes are free. -/
def Symbol.weight : Symbol → Cost
  | .op o => o.weight
  | .hole _ => 0

/-- The weight of a name: that of its operator, and nothing for a name that has none. -/
def Cost.ofName (name : String) : Cost :=
  match Operator.ofName? name with
  | some op => op.weight
  | none => 0

end Synthesis
