import Synthesis.CommandLine.Directory
import Synthesis.CommandLine.Options
import Synthesis.Example.Parser
import Synthesis.Grammar.Parser
import Synthesis.Search.Run

/-!
# What the command does

The command reads a grammar and examples, searches, and prints the program it finds. Reading happens
in a fixed order, and the first thing that goes wrong is what is reported: the grammar file, the
grammar in it, the examples among the arguments, the examples file, the examples in it, and then the
search.

Reports go to a logger, which prints those that are important enough. What it makes of them on the
way to the screen is its own business: an outcome holds the reports themselves, and their text is
told by a rendering, of which nothing is known here (`Outcome.stderr`).
-/

set_option autoImplicit false

namespace Synthesis.CommandLine

/-- Why the command prints no program. -/
inductive Failure where
  | unreadable (name : String) (fault : FileFault)
  | badGrammar (error : GrammarError)
  | badExample (error : ExampleError)
  | noAnswer (error : SearchError)
  deriving DecidableEq

/-- The text that reports the failure. -/
def Failure.message : Failure → String
  | unreadable name fault => "cannot read " ++ name ++ ": " ++ fault.message
  | badGrammar e => e.message
  | badExample e => e.message
  | noAnswer e => e.message

/-! ## Before the search -/

/-- The text of a file. -/
def readFile (directory : Directory) (name : String) : Except Failure String :=
  (directory name).mapError (.unreadable name)

/-- The grammar asked for. -/
def loadGrammar (directory : Directory) (o : Options) : Except Failure Grammar :=
  match o.grammarFile with
  | none => .ok .arithmetic
  | some name => do
    let text ← readFile directory name
    (Grammar.parse text).mapError .badGrammar

/-- The examples among the arguments, followed by those in the examples file. -/
def loadExamples (directory : Directory) (o : Options) : Except Failure (List Example) := do
  let given ← (o.examples.mapM Example.parse).mapError .badExample
  match o.examplesFile with
  | none => return given
  | some name =>
    let text ← readFile directory name
    let listed ← (Example.parseAll text).mapError .badExample
    return given ++ listed

/-- The search that the options ask for. -/
def prepare (directory : Directory) (o : Options) : Except Failure Search := do
  let g ← loadGrammar directory o
  let examples ← loadExamples directory o
  (Search.start g examples o.limits .interpreter).mapError .noAnswer

/-! ## Reports -/

/-- A report as the logger gets it. -/
structure Report where
  level : Level
  message : String
  deriving DecidableEq

/-- The report of an event. -/
def Report.ofEvent (e : Event) : Report := ⟨e.level, e.message⟩

/-- The least important level that is printed. -/
def threshold (verbosity : Nat) : Level :=
  match verbosity with
  | 0 => .warning
  | 1 => .info
  | _ => .debug

/-- The reports that are printed. -/
def printed (verbosity : Nat) (reports : List Report) : List Report :=
  reports.filter fun r => r.level.rank ≤ (threshold verbosity).rank

/-! ## After the search -/

/-- What the command leaves behind. -/
structure Outcome where
  exitCode : Nat
  stdout : String
  /-- The reports that were printed, in order. -/
  reports : List Report
  deriving DecidableEq

/-- What is on the error stream after a logger has rendered the reports. -/
def Outcome.stderr (render : Report → String) (outcome : Outcome) : String :=
  String.join (outcome.reports.map render)

/-- The end of a command that failed. -/
def fail (o : Options) (events : List Event) (f : Failure) : Outcome :=
  ⟨1, "", printed o.verbosity (events.map .ofEvent ++ [⟨.error, f.message⟩])⟩

/-- The end of a command whose search ended. The counters of a successful search are of interest to
everybody who asks for reports, so they are repeated at that level. -/
def conclude (o : Options) (events : List Event) (stats : Stats) :
    Except SearchError Program → Outcome
  | .error e => fail o events (.noAnswer e)
  | .ok p =>
    ⟨0, p.text ++ "\n",
      printed o.verbosity (events.map .ofEvent ++ [⟨.info, (Event.finished stats).message⟩])⟩

/-! ## The whole of it -/

/-- A run with the given options, if its search ends within `fuel` steps. Each of them reads the
clock, which counts milliseconds from the start of the search. -/
def execute (directory : Directory) (o : Options) (clock : Nat → Nat) (fuel : Nat) :
    Option Outcome :=
  match prepare directory o with
  | .error f => some (fail o [] f)
  | .ok s =>
    let run := s.run (.ofClock clock) fuel
    run.result.map (conclude o (s.startEvent :: run.events) run.search.stats)

end Synthesis.CommandLine
