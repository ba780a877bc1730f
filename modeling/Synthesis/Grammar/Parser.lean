import Synthesis.Grammar.Basic
import Synthesis.Text.Blank
import Synthesis.Text.Cut

/-!
# Written grammars

A grammar is written with one rule on a line, `E -> x | 1 | Add(E, E)`: a category, an arrow, and
the alternatives between bars. An alternative is the name of an operator, followed by the categories
of its operands in parentheses if it takes any. White space around the tokens does not matter, and
the rest of a line after `#` is a comment. Each category has at most one rule, and that of the
numeric expressions comes first.

A reader goes through the lines from top to bottom and reports the first fault in the first line
that has one. What concerns the grammar as a whole is checked only when every line is in order.
-/

set_option autoImplicit false

namespace Synthesis

open Text

/-- Why a text is no grammar. -/
inductive GrammarError where
  /-- There is no rule at all. -/
  | empty
  /-- A line has no arrow. -/
  | missingArrow (line : Nat)
  /-- A name is not that of a category. -/
  | unknownCategory (line : Nat) (name : String)
  /-- A name is not that of an operator. -/
  | unknownOperator (line : Nat) (name : String)
  /-- The parenthesis is not closed at the end of the alternative, or there is no name. -/
  | malformed (line : Nat) (alternative : String)
  /-- The operator produces values of the other category. -/
  | wrongCategory (line : Nat) (op : Operator) (category : Category)
  /-- The operator takes other operands than those listed. -/
  | wrongOperands (line : Nat) (op : Operator)
  /-- The category has a rule already. -/
  | redefined (category : Category)
  /-- The category is used but has no rule. -/
  | undefined (category : Category)
  /-- The first rule is not that of the numeric expressions. -/
  | wrongStart (category : Category)
  deriving DecidableEq

/-- The text that reports the fault. -/
def GrammarError.message : GrammarError → String
  | empty => "grammar has no rules"
  | missingArrow line => atLine line "expected `<category> -> <alternatives>`"
  | unknownCategory line name => atLine line ("unknown category `" ++ name ++ "`")
  | unknownOperator line name => atLine line ("unknown operator `" ++ name ++ "`")
  | malformed line alternative => atLine line ("malformed alternative `" ++ alternative ++ "`")
  | wrongCategory line op category =>
    atLine line ("`" ++ op.name ++ "` produces a " ++ op.category.name ++ " value, not " ++
      category.name)
  | wrongOperands line op => atLine line ("`" ++ op.name ++ "` does not take the listed children")
  | redefined category => "category `" ++ category.name ++ "` defined twice"
  | undefined category => "category `" ++ category.name ++ "` is used but has no alternatives"
  | wrongStart category =>
    "programs are numeric, the first rule must define `E`, not `" ++ category.name ++ "`"
where
  /-- A message about one line. -/
  atLine (line : Nat) (message : String) : String :=
    "line " ++ toString line ++ ": " ++ message

namespace Grammar

/-! ## One rule -/

/-- The category named by a text. -/
def readCategory (line : Nat) (name : List Char) : Except GrammarError Category :=
  match Category.ofName? (.ofList name) with
  | some c => .ok c
  | none => .error (.unknownCategory line (.ofList name))

/-- The operator's name and the categories listed after it. -/
def readApplication (line : Nat) (alternative : List Char) :
    Except GrammarError (List Char × List Category) :=
  match cut? ['('] alternative with
  | none => .ok (alternative, [])
  | some (name, rest) =>
    if rest.getLast? = some ')' then do
      let operands ← ((splitOn ',' rest.dropLast).map trim).mapM (readCategory line)
      return (trim name, operands)
    else .error (.malformed line (.ofList alternative))

/-- One alternative of a category, without white space around it. -/
def readProduction (line : Nat) (c : Category) (alternative : List Char) :
    Except GrammarError (Production c) := do
  let (name, operands) ← readApplication line alternative
  if name.isEmpty then throw (.malformed line (.ofList alternative))
  let some op := Operator.ofName? (.ofList name) | throw (.unknownOperator line (.ofList name))
  if h : op.category = c then
    if operands = op.signature then return ⟨op, h⟩
    else throw (.wrongOperands line op)
  else throw (.wrongCategory line op c)

/-- A category and its productions. -/
structure Rule where
  category : Category
  productions : List (Production category)

/-- The rule written on a line, without comment and white space around it. -/
def readRule (line : Nat) (text : List Char) : Except GrammarError Rule := do
  let some (name, alternatives) := cut? arrow text | throw (.missingArrow line)
  let category ← readCategory line (trim name)
  let productions ← ((splitOn '|' alternatives).map trim).mapM (readProduction line category)
  return ⟨category, productions⟩

/-! ## All lines -/

/-- What has been read of a grammar after some of its lines. -/
structure Draft where
  /-- The category of the first rule. -/
  first : Option Category
  numeric : Option (List (Production .numeric))
  boolean : Option (List (Production .boolean))

namespace Draft

/-- Nothing has been read. -/
def empty : Draft := ⟨none, none, none⟩

/-- Adds a rule, if its category has none yet. -/
def addRule (d : Draft) : Rule → Except GrammarError Draft
  | ⟨.numeric, productions⟩ =>
    if d.numeric.isSome then .error (.redefined .numeric)
    else .ok { d with first := d.first.or (some .numeric), numeric := some productions }
  | ⟨.boolean, productions⟩ =>
    if d.boolean.isSome then .error (.redefined .boolean)
    else .ok { d with first := d.first.or (some .boolean), boolean := some productions }

/-- Adds what is written on a line, which is nothing if only a comment is. -/
def addLine (d : Draft) (line : Nat) (text : List Char) : Except GrammarError Draft := do
  -- A comment may follow a rule; what is in it does not matter, arrows and bars included.
  let text := trim (text.takeWhile (· ≠ '#'))
  if text.isEmpty then return d
  d.addRule (← readRule line text)

/-- Adds the given lines, the first of which has the given number. -/
def addLines (d : Draft) (line : Nat) : List (List Char) → Except GrammarError Draft
  | [] => .ok d
  | text :: texts => do
    let d ← d.addLine line text
    d.addLines (line + 1) texts

/-- The finished grammar. -/
def finish (d : Draft) : Except GrammarError Grammar :=
  match d.first with
  | none => .error .empty
  | some .boolean => .error (.wrongStart .boolean)
  | some .numeric =>
    let g : Grammar := ⟨d.numeric.getD [], d.boolean.getD []⟩
    match g.undefined? with
    | some c => .error (.undefined c)
    | none => .ok g

end Draft

/-- The grammar written by a list of characters. -/
def ofChars (text : List Char) : Except GrammarError Grammar := do
  let d ← Draft.empty.addLines 1 (splitOn '\n' text)
  d.finish

/-- The grammar written by a text. -/
def parse (text : String) : Except GrammarError Grammar := ofChars text.toList

end Grammar

end Synthesis
