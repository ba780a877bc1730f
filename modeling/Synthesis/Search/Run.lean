import Synthesis.Search.Log

/-!
# Running a search

A run is steps up to the first accepted program, or up to the first step that fails. Nothing
promises that a run ends: there may be no program at all and ever more trees to look at. So a run is
given a number of steps that it may take, and one that uses them up without an end has no result;
its search can be run on.

Every step looks at the clock and at the request to stop anew. What it will see then is not for the
search to know, so a run is handed a `Schedule`, which may be any.
-/

set_option autoImplicit false

namespace Synthesis

/-- What steps see of the outside world, told by the number of steps before them. -/
abbrev Schedule := Nat → Signals

/-- Signals that never change. -/
instance : Coe Signals Schedule := ⟨fun x _ => x⟩

/-- Nobody asks to stop, and a clock is read in every step. -/
def Schedule.ofClock (clock : Nat → Nat) : Schedule := fun n => ⟨false, clock n⟩

/-- Where a run got to. -/
structure Run where
  /-- The program or the reason for having none; nothing if the run was not over. -/
  result : Option (Except SearchError Program)
  search : Search
  /-- The reports, in order. -/
  events : List Event

namespace Search

/-- A run that has already made the given reports, the latest first. -/
def runFrom (schedule : Schedule) : Nat → List Event → Search → Run
  | 0, made, s => ⟨none, s, made.reverse⟩
  | fuel + 1, made, s =>
    match s.step (schedule s.steps) with
    | (.error e, s) => ⟨some (.error e), s, made.reverse⟩
    | (.ok (.accepted p), s) =>
      ⟨some (.ok p), s, made.reverse ++ [.accepted p, .found p s.steps, .finished s.stats]⟩
    | (.ok examined, s) => runFrom schedule fuel (examined.events.reverse ++ made) s

/-- Steps until a program is accepted or a step fails, but no more steps than `fuel`. -/
def run (s : Search) (schedule : Schedule) (fuel : Nat) : Run := runFrom schedule fuel [] s

end Search

/-- The cheapest program of a grammar that meets all examples, searched for in at most `fuel`
steps. -/
def synthesize (g : Grammar) (examples : List Example) (limits : Limits) (schedule : Schedule)
    (fuel : Nat) : Option (Except SearchError Program) :=
  match Search.start g examples limits .interpreter with
  | .error e => some (.error e)
  | .ok s => (s.run schedule fuel).result

end Synthesis
