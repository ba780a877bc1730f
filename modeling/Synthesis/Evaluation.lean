import Synthesis.Tree.Basic

/-!
# Evaluation

Running a tree on an input. Numbers wrap around, conditions pick one branch, and conjunctions and
disjunctions stop at the first operand that decides them: what is not needed is not evaluated, so a
hole or an unbound variable there does no harm. What is needed is evaluated from left to right, and
the first fault met is the answer.

A complete tree whose children fit their places evaluates on every input that binds its variables.
-/

set_option autoImplicit false

namespace Synthesis

/-- The variables an input gives a value to. -/
abbrev Bindings := PerVariable (Option Value)

/-- Why a tree has no value. -/
inductive EvalError where
  /-- The variable is read but the input does not bind it. -/
  | unbound (v : Variable)
  /-- The place reached is a hole. -/
  | hole (category : Category)
  /-- The operator reached produces a value of the other category. -/
  | misfit (op : Operator) (wanted : Category)
  deriving DecidableEq

/-- The text that reports the fault. -/
def EvalError.message : EvalError → String
  | unbound v => "variable `" ++ v.name ++ "` is not bound"
  | hole c => "cannot evaluate a hole of category `" ++ c.name ++ "`"
  | misfit op wanted =>
    "`" ++ op.name ++ "` used where a " ++ wanted.adjective ++ " value was expected"

/-- The value of a variable or literal. -/
def Atom.eval (input : Bindings) : Atom → Except EvalError Value
  | .var v =>
    match input.get v with
    | some n => .ok n
    | none => .error (.unbound v)
  | .lit l => .ok l.value

namespace Tree

mutual

/-- The number a tree evaluates to. -/
def evalNumber (input : Bindings) : Tree → Except EvalError Value
  | hole c _ => .error (.hole c)
  | leaf a _ => a.eval input
  | not _ _ => .error (.misfit .not .numeric)
  | binary .add l r _ => do
    let m ← l.evalNumber input
    let n ← r.evalNumber input
    return m + n
  | binary .multiply l r _ => do
    let m ← l.evalNumber input
    let n ← r.evalNumber input
    return m * n
  | binary op _ _ _ => .error (.misfit (.binary op) .numeric)
  | ite c p n _ => do
    if ← c.evalTruth input then p.evalNumber input else n.evalNumber input

/-- The truth value a tree evaluates to. -/
def evalTruth (input : Bindings) : Tree → Except EvalError Bool
  | hole c _ => .error (.hole c)
  | leaf a _ => .error (.misfit (.atom a) .boolean)
  | not c _ => do
    return !(← c.evalTruth input)
  | binary .lt l r _ => do
    let m ← l.evalNumber input
    let n ← r.evalNumber input
    return decide (m < n)
  | binary .eq l r _ => do
    let m ← l.evalNumber input
    let n ← r.evalNumber input
    return decide (m = n)
  | binary .and l r _ => do
    if ← l.evalTruth input then r.evalTruth input else return false
  | binary .or l r _ => do
    if ← l.evalTruth input then return true else r.evalTruth input
  | binary op _ _ _ => .error (.misfit (.binary op) .boolean)
  | ite _ _ _ _ => .error (.misfit .ite .boolean)

end

end Tree

/-- A way to run programs. -/
abbrev Evaluator := Program → Bindings → Except EvalError Value

/-- The evaluator that runs the program's tree. -/
def Evaluator.interpreter : Evaluator := fun p input => p.tree.evalNumber input

end Synthesis
