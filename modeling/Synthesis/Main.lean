import Synthesis.CommandLine.Run

/-!
# The executable

The outer layer of the command: it fetches the two files that the options name, keeps the clock, and
prints. A search is run in slices of one step, so that each step reads the clock, and the reports of
a slice are printed before the next begins.
-/

set_option autoImplicit false

namespace Synthesis.CommandLine

/-- The number that the system gives an error, which may come with either sign. -/
def errorNumber (code : UInt32) : UInt32 := if code < 0x80000000 then code else 0 - code

/-- Why reading a file went wrong. -/
def faultOfError (e : IO.Error) : FileFault :=
  match e with
  | .noFileOrDirectory .. => .missing
  | .permissionDenied .. => .denied
  | .inappropriateType _ code _ => if errorNumber code = 21 then .isDirectory else .notDirectory
  | .invalidArgument _ code _ => if errorNumber code = 36 then .nameTooLong else .other e.toString
  | .userError _ => .notText
  | _ => .other e.toString

/-- The text of a file on disk. -/
def fetch (name : String) : IO (Except FileFault String) := do
  try
    return .ok (← IO.FS.readFile name)
  catch e =>
    return .error (faultOfError e)

/-- The directory in which just the named files are looked up. -/
def fetchAll (names : List String) : IO Directory := do
  let mut answers : List (String × Except FileFault String) := []
  for name in names do
    answers := (name, ← fetch name) :: answers
  let found := answers
  return fun name => (found.lookup name).getD (.error .missing)

/-- Prints the reports that the options ask for. -/
def report (o : Options) (events : List Event) : IO Unit := do
  let reports := printed o.verbosity (events.map .ofEvent)
  unless reports.isEmpty do
    (← IO.getStderr).putStr (String.join (reports.map Report.plain))

/-- Runs a search to its end and prints its reports on the way. -/
partial def search (o : Options) (started : Nat) (s : Search) :
    IO (Stats × Except SearchError Program) := do
  let now ← IO.monoMsNow
  let run := s.run (.ofClock fun _ => now - started) 1
  report o run.events
  match run.result with
  | some result => return (run.search.stats, result)
  | none => search o started run.search

/-- Does what the options ask for, and leaves only the last report to be printed. -/
def perform (o : Options) : IO Outcome := do
  let directory ← fetchAll (o.grammarFile.toList ++ o.examplesFile.toList)
  match prepare directory o with
  | .error f => return fail o [] f
  | .ok s =>
    let started ← IO.monoMsNow
    report o [s.startEvent]
    let (stats, result) ← search o started s
    return conclude o [] stats result

/-- Does what the arguments ask for. -/
def runArguments (arguments : List String) : IO Transcript := do
  match Request.parse arguments with
  | .error e => return misuse e
  | .ok .version => return version
  | .ok (.run o) => return (← perform o).transcript

end Synthesis.CommandLine

/-- Runs the command with the arguments of the process. -/
def main (arguments : List String) : IO UInt32 := do
  let transcript ← Synthesis.CommandLine.runArguments arguments
  (← IO.getStderr).putStr transcript.stderr
  (← IO.getStdout).putStr transcript.stdout
  return transcript.exitCode.toUInt32
