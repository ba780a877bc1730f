import Synthesis.Search.Basic
import Synthesis.Text.Cut
import Synthesis.Text.Integer

/-!
# Command-line options

Arguments are read from left to right, and the first one that is wrong ends the reading. Long
options take their value after an equals sign or from the next argument; short ones may also have it
right behind the letter, and several letters without values may share one dash. An argument that
looks like an option is never taken for the value of the option before it.
-/

set_option autoImplicit false

namespace Synthesis.CommandLine

/-- What a run is asked to do. -/
structure Options where
  /-- Written examples, in the order given. -/
  examples : List String
  /-- A file with more examples. -/
  examplesFile : Option String
  /-- A file with the grammar to use instead of integer arithmetic. -/
  grammarFile : Option String
  limits : Limits
  /-- How often more reports were asked for. -/
  verbosity : Nat

/-- No options at all. -/
def Options.none : Options := ⟨[], .none, .none, .none, 0⟩

/-- An option that takes a value. -/
inductive Setting where
  | exampleText
  | examplesFile
  | grammar
  | maxNodes
  | maxQueue
  | maxSteps
  | timeout
  deriving DecidableEq

/-- An option: one that takes a value, or a switch that takes none. -/
inductive Flag where
  | takes (setting : Setting)
  | verbose
  | version
  deriving DecidableEq

/-- The name after two dashes. -/
def Setting.name : Setting → String
  | exampleText => "example"
  | examplesFile => "examples-file"
  | grammar => "grammar"
  | maxNodes => "max-nodes"
  | maxQueue => "max-queue"
  | maxSteps => "max-steps"
  | timeout => "timeout-ms"

/-- All settings. -/
def Setting.all : List Setting :=
  [exampleText, examplesFile, grammar, maxNodes, maxQueue, maxSteps, timeout]

/-- The option with a long name. -/
def Flag.ofName? (name : String) : Option Flag :=
  if name = "verbose" then some verbose
  else if name = "version" then some version
  else (Setting.all.find? (·.name = name)).map takes

/-- The option with a one-letter name. -/
def Flag.ofLetter? : Char → Option Flag
  | 'e' => some (takes .exampleText)
  | 'g' => some (takes .grammar)
  | 'v' => some verbose
  | 'V' => some version
  | _ => none

/-- What is wrong with the arguments. -/
inductive UsageError where
  /-- There is no such option, or no option takes the argument. -/
  | unexpected (argument : String)
  /-- An option stands without its value. -/
  | missingValue (setting : Setting)
  /-- A switch was given a value. -/
  | needlessValue (switch : String)
  /-- An option that can be given once was given again. -/
  | repeated (setting : Setting)
  /-- The value is not a number of the right size. -/
  | invalidValue (setting : Setting) (value : String)
  deriving DecidableEq

/-- The text that reports the fault. -/
def UsageError.message : UsageError → String
  | unexpected argument => "unexpected argument '" ++ argument ++ "' found"
  | missingValue setting =>
    "a value is required for '--" ++ setting.name ++ "' but none was supplied"
  | needlessValue switch => "unexpected value for '--" ++ switch ++ "' found"
  | repeated setting => "the argument '--" ++ setting.name ++ "' cannot be used multiple times"
  | invalidValue setting value =>
    "invalid value '" ++ value ++ "' for '--" ++ setting.name ++ "'"

/-! ## Values -/

/-- Fills in a value that may be given once. -/
def setOnce {α : Type} (setting : Setting) (old : Option α) (new : α) :
    Except UsageError (Option α) :=
  if old.isSome then .error (.repeated setting) else .ok (some new)

/-- The number of a cap, which is unsigned and has 64 bits. -/
def readCap (setting : Setting) (value : String) : Except UsageError Nat :=
  match Text.readWord? value.toList with
  | some n => .ok n
  | none => .error (.invalidValue setting value)

/-- The name of a file, which is never empty. -/
def readFileName (setting : Setting) (value : String) : Except UsageError String :=
  if value.isEmpty then .error (.missingValue setting) else .ok value

/-- Adds a setting with its value. -/
def Options.assign (o : Options) (setting : Setting) (value : String) :
    Except UsageError Options := do
  match setting with
  | .exampleText => return { o with examples := o.examples ++ [value] }
  | .examplesFile =>
    let name ← readFileName setting value
    return { o with examplesFile := ← setOnce setting o.examplesFile name }
  | .grammar =>
    let name ← readFileName setting value
    return { o with grammarFile := ← setOnce setting o.grammarFile name }
  | .maxNodes =>
    let n ← readCap setting value
    return { o with limits.maxNodes := ← setOnce setting o.limits.maxNodes n }
  | .maxQueue =>
    let n ← readCap setting value
    return { o with limits.maxQueue := ← setOnce setting o.limits.maxQueue n }
  | .maxSteps =>
    let n ← readCap setting value
    return { o with limits.maxSteps := ← setOnce setting o.limits.maxSteps n }
  | .timeout =>
    let n ← readCap setting value
    return { o with limits.timeout := ← setOnce setting o.limits.timeout n }

/-! ## Arguments -/

/-- Where reading stands after one argument. -/
inductive Progress where
  /-- The argument is dealt with. -/
  | read (o : Options)
  /-- The next argument is the value of a setting. -/
  | awaiting (o : Options) (setting : Setting)
  /-- The version was asked for, and nothing else matters. -/
  | version

/-- Reads a long option, given without its dashes. -/
def readLong (o : Options) (text : List Char) : Except UsageError Progress := do
  let (name, value) := match Text.cut? ['='] text with
    | some (name, value) => (String.ofList name, some (String.ofList value))
    | none => (String.ofList text, none)
  match Flag.ofName? name, value with
  | some (.takes setting), some value => return .read (← o.assign setting value)
  | some (.takes setting), none => return .awaiting o setting
  | some .verbose, none => return .read { o with verbosity := o.verbosity + 1 }
  | some .version, none => return .version
  | some _, some _ => throw (.needlessValue name)
  | none, _ => throw (.unexpected ("--" ++ name))

/-- Reads the letters behind a single dash. -/
def readShort (o : Options) : List Char → Except UsageError Progress
  | [] => .ok (.read o)
  | letter :: letters =>
    match Flag.ofLetter? letter, letters with
    | some .verbose, letters => readShort { o with verbosity := o.verbosity + 1 } letters
    | some .version, _ => .ok .version
    | some (.takes setting), [] => .ok (.awaiting o setting)
    -- One equals sign between the letter and its value is not part of the value.
    | some (.takes setting), '=' :: value => (o.assign setting (.ofList value)).map .read
    | some (.takes setting), value => (o.assign setting (.ofList value)).map .read
    | none, _ => .error (.unexpected ("-" ++ String.ofList [letter]))

/-- Whether an argument looks like an option, or like the mark that ends the options. -/
def isOption : List Char → Bool
  | '-' :: _ :: _ => true
  | _ => false

/-- Reads one argument; only options are expected. -/
def readArgument (o : Options) (argument : String) : Except UsageError Progress :=
  match argument.toList with
  | '-' :: '-' :: c :: text => readLong o (c :: text)
  | '-' :: c :: letters => readShort o (c :: letters)
  | _ => .error (.unexpected argument)

/-- What the arguments ask for. -/
inductive Request where
  | run (o : Options)
  | version

/-- Reads all arguments, given the options read already. Two dashes end the options, and nothing may
follow them. -/
def readAll (o : Options) : List String → Except UsageError Request
  | [] => .ok (.run o)
  | ["--"] => .ok (.run o)
  | "--" :: argument :: _ => .error (.unexpected argument)
  | argument :: arguments => do
    match ← readArgument o argument, arguments with
    | .read o, arguments => readAll o arguments
    | .version, _ => return .version
    | .awaiting _ setting, [] => throw (.missingValue setting)
    | .awaiting o setting, value :: arguments =>
      if isOption value.toList then throw (.missingValue setting)
      readAll (← o.assign setting value) arguments

/-- What a list of arguments asks for. -/
def Request.parse (arguments : List String) : Except UsageError Request :=
  readAll .none arguments

end Synthesis.CommandLine
