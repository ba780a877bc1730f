import Synthesis.Cost.Text
import Synthesis.Search.Basic

/-!
# What a search reports

A search reports its beginning, every program it tries and its end. The reports are values; how they
are worded and how important each of them is, is said here and nowhere else.
-/

set_option autoImplicit false

namespace Synthesis

/-- How important a report is, the most important first. -/
inductive Level where
  | error
  | warning
  | info
  | debug
  deriving DecidableEq

/-- The position in the order of importance. -/
def Level.rank : Level → Nat
  | error => 0
  | warning => 1
  | info => 2
  | debug => 3

/-- Something a search reports. -/
inductive Event where
  | started (examples : Nat) (bounds : Bounds)
  | rejected (program : Program)
  | accepted (program : Program)
  | found (program : Program) (steps : Nat)
  | finished (stats : Stats)
  deriving DecidableEq

namespace Event

/-- The importance of the report: the beginning and the answer are of interest to everybody, the
programs tried on the way are not. -/
def level : Event → Level
  | started _ _ | found _ _ => .info
  | rejected _ | accepted _ | finished _ => .debug

/-- The wording of the report. -/
def message : Event → String
  | started examples bounds =>
    "Searching with " ++ toString examples ++ " examples, bounds " ++ bounds.text
  | rejected p => "Rejected: " ++ p.text
  | accepted p =>
    "Accepted: " ++ p.text ++ " (cost " ++ p.tree.cost.text ++ ", " ++ toString p.tree.size ++
      " nodes)"
  | found p steps => "Found " ++ p.text ++ " after " ++ toString steps ++ " steps"
  | finished stats => "Stats: " ++ stats.text

end Event

/-- The report on a tree that was looked at; only programs are reported. -/
def Examined.events : Examined → List Event
  | expanded _ _ => []
  | rejected p => [.rejected p]
  | accepted p => [.accepted p]

/-- The report on a search that begins. -/
def Search.startEvent (s : Search) : Event := .started s.examples.length s.enumerator.bounds

end Synthesis
