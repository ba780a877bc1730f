import Synthesis.PerVariable
import Synthesis.Value

/-!
# Bounds

What a run knows about magnitudes before it starts: the largest output that any example asks for,
and for each variable the largest magnitude it takes. From these every tree derives a bound. A
complete tree evaluates to nothing larger; a tree with holes may still become one that does, unless
its bound is below the target. Then it cannot reach the target and is not worth growing.
-/

set_option autoImplicit false

namespace Synthesis

/-- The magnitudes that the nodes of a tree derive their bounds from. -/
structure Bounds where
  /-- The largest output asked for. -/
  target : Value
  /-- The largest magnitude of each variable. -/
  ceilings : PerVariable Value
  deriving DecidableEq

namespace Bounds

/-- Nothing is asked for and every variable is zero. -/
def zero : Bounds := ⟨0, .const 0⟩

/-- The bound of a variable is its ceiling, that of a literal the literal itself. -/
def ofAtom (b : Bounds) : Atom → Value
  | .var v => b.ceilings.get v
  | .lit l => l.value

/-- Sums and products are bounded by the saturated sum and product of the operands' bounds. A truth
value has no magnitude; it takes the target, so that it never makes a tree look hopeless. -/
def ofBinary (b : Bounds) : BinaryOperator → Value → Value → Value
  | .add, l, r => l.satAdd r
  | .multiply, l, r => l.satMul r
  | .lt, _, _ | .eq, _, _ | .and, _, _ | .or, _, _ => b.target

/-- The form used in messages. -/
def text (b : Bounds) : String :=
  let ceilings := ", ".intercalate (b.ceilings.toList.map Value.text)
  "Bounds \x7b target: " ++ b.target.text ++ ", vars: [" ++ ceilings ++ "] \x7d"

end Bounds

end Synthesis
