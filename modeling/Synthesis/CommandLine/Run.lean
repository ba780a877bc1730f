import Synthesis.CommandLine.Execute
import Synthesis.Text.Control

/-!
# The command

The command as a function from its arguments and its directory to what can be seen of it: an exit
code and two streams of text. Its reports are rendered for a screen without colours.
-/

set_option autoImplicit false

namespace Synthesis.CommandLine

/-! ## Rendering -/

/-- The mark in front of a report. -/
def levelMark : Level → String
  | .error => "[E] "
  | .warning => "[W] "
  | .info => "[*] "
  | .debug => "[D] "

/-- What is printed between two lines of a report: the second one stands behind a bar. -/
def lineJoint : List Char := ['\n', ' ', '|', ' ', ' ']

/-- A report on the screen, where it is without control characters. -/
def Report.plain (r : Report) : String :=
  let lines := lineJoint.intercalate (Text.splitOn '\n' r.message.toList)
  String.ofList (Text.shown ((levelMark r.level).toList ++ lines ++ ['\n']))

/-! ## The whole command -/

/-- What can be seen of a run. -/
structure Transcript where
  exitCode : Nat
  stdout : String
  stderr : String
  deriving DecidableEq

/-- What can be seen of an outcome. -/
def Outcome.transcript (outcome : Outcome) : Transcript :=
  ⟨outcome.exitCode, outcome.stdout, outcome.stderr Report.plain⟩

/-- The end of a command whose arguments are wrong. -/
def misuse (e : UsageError) : Transcript := ⟨2, "", "error: " ++ e.message ++ "\n"⟩

/-- The end of a command that was asked for its version. -/
def version : Transcript := ⟨0, "topdown-synth 0.1.0\n", ""⟩

/-- A run with the given arguments, if its search ends within `fuel` steps. Unless a clock is given,
no time passes. -/
def run (directory : Directory) (arguments : List String) (fuel : Nat)
    (clock : Nat → Nat := fun _ => 0) : Option Transcript :=
  match Request.parse arguments with
  | .error e => some (misuse e)
  | .ok .version => some version
  | .ok (.run o) => (execute directory o clock fuel).map (·.transcript)

end Synthesis.CommandLine
