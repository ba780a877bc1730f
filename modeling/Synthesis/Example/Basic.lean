import Synthesis.Evaluation

/-!
# Examples

An example asks for one output on one input. Examples read from text bind every variable; one put
together by hand may leave some unbound, and then a program that reads them has no value on it.
-/

set_option autoImplicit false

namespace Synthesis

/-- An input and the output wanted for it. -/
structure Example where
  input : Bindings
  output : Value
  deriving DecidableEq

namespace Example

/-- The example that binds all three variables. -/
def ofValues (x y z output : Value) : Example := ⟨⟨some x, some y, some z⟩, output⟩

/-- Whether a program produces the output, run by the given evaluator. -/
def accepts (e : Example) (evaluator : Evaluator) (p : Program) : Except EvalError Bool := do
  let value ← evaluator p e.input
  return decide (value = e.output)

/-- Whether a program produces every output. The examples are tried in order, up to the first one
that the program does not meet. -/
def allAccept (evaluator : Evaluator) (p : Program) : List Example → Except EvalError Bool
  | [] => .ok true
  | e :: es => do
    if ← e.accepts evaluator p then allAccept evaluator p es else return false

end Example

namespace Bounds

/-- Takes one more example into account. An unbound variable counts as zero. -/
def widen (b : Bounds) (e : Example) : Bounds where
  target := max b.target e.output
  ceilings := b.ceilings.zipWith (fun ceiling value => max ceiling (value.getD 0).satAbs) e.input

/-- The largest output asked for, but at least zero, and the largest magnitudes of the variables. -/
def ofExamples (es : List Example) : Bounds := es.foldl widen zero

end Bounds

end Synthesis
