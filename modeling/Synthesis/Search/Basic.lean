import Synthesis.Enumerator
import Synthesis.Example.Basic

/-!
# The search

A search drives an enumerator and tries the complete trees that come up on the examples. It moves in
steps: each takes the cheapest tree and either expands it or, if it is complete, finds it right or
wrong. How long this takes is not for the search to say, so what a step can see of the outside
world, a request to stop and the time that has passed, is handed to it as `Signals`.

A step that may not go ahead puts the tree back where it was. So a search that was stopped or ran
into a limit can be taken up again, and goes on as if nothing had happened.
-/

set_option autoImplicit false

namespace Synthesis

/-! ## Limits -/

/-- Caps on a search; one that is missing is no cap. -/
structure Limits where
  /-- Nodes that may be built. -/
  maxNodes : Option Nat
  /-- Trees that may be in line. -/
  maxQueue : Option Nat
  /-- Trees that may be looked at. -/
  maxSteps : Option Nat
  /-- Milliseconds that may pass. -/
  timeout : Option Nat
  deriving DecidableEq

/-- No caps at all. -/
def Limits.none : Limits := ⟨.none, .none, .none, .none⟩

/-- What a step sees of the outside world. -/
structure Signals where
  /-- Someone wants the search to stop. -/
  cancelled : Bool
  /-- Milliseconds since the search began. -/
  elapsed : Nat
  deriving DecidableEq

/-- Nobody asks to stop, and no time has passed. -/
def Signals.quiet : Signals := ⟨false, 0⟩

/-- A cap that was hit. -/
inductive Budget where
  | nodes (max : Nat)
  | queue (max : Nat)
  | steps (max : Nat)
  | time (milliseconds : Nat)
  deriving DecidableEq

/-- A span of milliseconds in the largest unit, seconds or milliseconds, that it fills: seconds have
as many decimals as it takes, and no time at all is measured in nanoseconds. -/
def durationText (milliseconds : Nat) : String :=
  if milliseconds = 0 then "0ns"
  else if milliseconds < 1000 then toString milliseconds ++ "ms"
  else toString (milliseconds / 1000) ++ decimals (milliseconds % 1000) ++ "s"
where
  /-- Thousandths after a point, without zeros at the end. -/
  decimals (thousandths : Nat) : String :=
    if thousandths = 0 then ""
    else
      let digits := ((toString (1000 + thousandths)).toList.drop 1).reverse.dropWhile (· = '0')
      "." ++ String.ofList digits.reverse

/-- The form used in messages. -/
def Budget.text : Budget → String
  | nodes max => "Nodes(" ++ toString max ++ ")"
  | queue max => "Queue(" ++ toString max ++ ")"
  | steps max => "Steps(" ++ toString max ++ ")"
  | time milliseconds => "Time(" ++ durationText milliseconds ++ ")"

/-- Why there is no answer. -/
inductive SearchError where
  /-- Without examples there is nothing to search for. -/
  | noExamples
  /-- A cap was hit. -/
  | budget (budget : Budget)
  /-- Someone asked to stop. -/
  | cancelled
  /-- No tree is left in line. -/
  | exhausted
  /-- A complete tree has no value on an example. -/
  | evaluation (error : EvalError)
  deriving DecidableEq

/-- The text that reports the reason. -/
def SearchError.message : SearchError → String
  | noExamples => "at least one example is required"
  | budget b => "search budget exhausted: " ++ b.text
  | cancelled => "search cancelled"
  | exhausted => "worklist exhausted without a program"
  | evaluation e => "evaluating a candidate failed: " ++ e.message

/-! ## Steps -/

/-- A search in progress. -/
structure Search where
  enumerator : Enumerator
  examples : List Example
  evaluator : Evaluator
  limits : Limits
  /-- The number of trees looked at so far. -/
  steps : Nat

/-- What a step did with the tree it took. -/
inductive Examined where
  /-- The tree had a hole, which was filled. -/
  | expanded (tree : Tree) (expansion : Expansion)
  /-- The tree is a program that misses an example. -/
  | rejected (program : Program)
  /-- The tree is a program that meets every example. -/
  | accepted (program : Program)
  deriving DecidableEq

namespace Search

/-- A search that has not begun. -/
def start (g : Grammar) (examples : List Example) (limits : Limits) (evaluator : Evaluator) :
    Except SearchError Search :=
  if examples.isEmpty then .error .noExamples
  else .ok ⟨.new g (.ofExamples examples), examples, evaluator, limits, 0⟩

/-- What the enumerator has done for the search. -/
def stats (s : Search) : Stats := s.enumerator.stats

/-- The first cap that is hit, of those on steps, nodes, queue and time in this order. -/
def budget? (s : Search) (signals : Signals) : Option Budget :=
  (s.limits.maxSteps.filter (· ≤ s.steps)).map .steps <|>
  (s.limits.maxNodes.filter (· < s.stats.nodesBuilt)).map .nodes <|>
  (s.limits.maxQueue.filter (· < s.enumerator.worklist.size)).map .queue <|>
  (s.limits.timeout.filter (· ≤ signals.elapsed)).map .time

/-- The first reason not to go on, where a request to stop comes before all caps. -/
def obstacle? (s : Search) (signals : Signals) : Option SearchError :=
  if signals.cancelled then some .cancelled else (s.budget? signals).map .budget

/-- Looks at one tree. -/
def examine (s : Search) (t : Tree) : Except SearchError Examined × Search :=
  match Program.ofTree? t with
  | none =>
    let (expansion, enumerator) := s.enumerator.expand t
    (.ok (.expanded t expansion), { s with enumerator })
  | some p =>
    match Example.allAccept s.evaluator p s.examples with
    | .error e => (.error (.evaluation e), s)
    | .ok true => (.ok (.accepted p), s)
    | .ok false => (.ok (.rejected p), s)

/-- Takes the cheapest tree and looks at it, unless there is a reason not to; then the tree goes
back. The queue is measured without the tree that was taken. -/
def step (s : Search) (signals : Signals) : Except SearchError Examined × Search :=
  match s.enumerator.pop? with
  | none => (.error .exhausted, s)
  | some (t, popped) =>
    let taken := { s with enumerator := popped }
    -- The pop has been counted by now, but the step has not.
    match taken.obstacle? signals with
    | some e => (.error e, { s with enumerator := (popped.unpop? t).getD popped })
    | none => { taken with steps := s.steps + 1 }.examine t

end Search

end Synthesis
