import Synthesis.Example.Basic
import Synthesis.Text.Blank
import Synthesis.Text.Cut
import Synthesis.Text.Integer

/-!
# Written examples

An example is written `x=1, y=0, z=0 -> 2`: a binding for each variable, in any order, and the
output. White space around the tokens does not matter, and neither do empty pieces between commas.
A list of examples has one on each line; blank lines and lines that start with `#` are skipped.

The faults are found from left to right, and the first one is reported: the arrow is looked for
before anything else, then come the bindings in order, then the variables that are missing, and the
output last.
-/

set_option autoImplicit false

namespace Synthesis

open Text

/-- Why a text is no example. -/
inductive ExampleError where
  /-- There is no arrow in the text. -/
  | missingArrow (text : String)
  /-- A piece between commas has no equals sign. -/
  | badBinding (binding : String)
  /-- What stands before the equals sign is not the name of a variable. -/
  | unknownVariable (name : String)
  /-- The variable has a value already. -/
  | rebound (v : Variable)
  /-- The variable has no value. -/
  | unbound (v : Variable)
  /-- What stands for a value or the output is not a 64-bit integer. -/
  | badInteger (text : String)
  deriving DecidableEq

/-- The text that reports the fault. -/
def ExampleError.message : ExampleError → String
  | missingArrow text => "expected `<bindings> -> <output>`, got `" ++ text ++ "`"
  | badBinding binding => "bad binding `" ++ binding ++ "`, expected `<var>=<int>`"
  | unknownVariable name => "unknown variable `" ++ name ++ "`"
  | rebound v => "variable `" ++ v.name ++ "` bound twice"
  | unbound v => "variable `" ++ v.name ++ "` is not bound"
  | badInteger text => "bad integer `" ++ text ++ "`"

namespace Example

/-- A number with white space around it. -/
def readValue (text : List Char) : Except ExampleError Value :=
  match readInt64? (trim text) with
  | some n => .ok n
  | none => .error (.badInteger (.ofList (trim text)))

/-- The variable and the value of one binding. -/
def readBinding (binding : List Char) : Except ExampleError (Variable × Value) := do
  let some (name, value) := cut? ['='] binding | throw (.badBinding (.ofList binding))
  let some v := Variable.ofName? (.ofList (trim name))
    | throw (.unknownVariable (.ofList (trim name)))
  return (v, ← readValue value)

/-- Adds one written binding to those already read. -/
def addBinding (input : Bindings) (binding : List Char) : Except ExampleError Bindings := do
  let (v, n) ← readBinding binding
  if (input.get v).isSome then throw (.rebound v)
  return input.set v (some n)

/-- The pieces between commas that are not blank. -/
def bindingTexts (text : List Char) : List (List Char) :=
  ((splitOn ',' text).map trim).filter (!·.isEmpty)

/-- The input written by a comma-separated list of bindings, which must bind every variable. -/
def readInput (text : List Char) : Except ExampleError Bindings := do
  let input ← (bindingTexts text).foldlM addBinding (.const none)
  match Variable.all.find? fun v => (input.get v).isNone with
  | some v => throw (.unbound v)
  | none => return input

/-- The example written by a list of characters. -/
def ofChars (text : List Char) : Except ExampleError Example := do
  let some (bindings, output) := cut? arrow text | throw (.missingArrow (.ofList text))
  let input ← readInput bindings
  return ⟨input, ← readValue output⟩

/-- The example written by a text. -/
def parse (text : String) : Except ExampleError Example := ofChars text.toList

/-- The lines of a list of examples that hold an example, without the white space around them. A
carriage return before the end of the line is white space. -/
def lines (text : List Char) : List (List Char) :=
  ((splitOn '\n' text).map trim).filter fun line => !line.isEmpty && line.head? != some '#'

/-- The examples written by a text, one on each line. -/
def parseAll (text : String) : Except ExampleError (List Example) :=
  (lines text.toList).mapM ofChars

end Example

end Synthesis
