/-!
# Control characters

Reports may quote texts that hold anything, also characters that would move the cursor or change the
colours of a terminal. What is printed is cleared of them: control characters are left out, except
for tabs and the ends of lines and pages, and so are the sequences that an escape character begins.

A sequence runs on until a character ends it, by the rules of terminals. White space of this kind
inside a short sequence is printed all the same, and pauses it: text follows until the next control
character, from which on the sequence goes on. A character outside ASCII ends the pause for good.
-/

set_option autoImplicit false

namespace Synthesis.Text

/-! ## Sequences -/

/-- What has been read of a sequence. -/
inductive Sequence where
  /-- The escape character. -/
  | escape
  /-- The escape character and characters that only another one can complete. -/
  | intermediate
  /-- The beginning `[` of a control sequence, and parameters. -/
  | control
  /-- The beginning `P` of a device control string. -/
  | device
  /-- The same, and parameters. -/
  | deviceParameters
  /-- The same, and characters that only another one can complete. -/
  | deviceIntermediate
  /-- The contents of a string that a terminator ends. -/
  | string
  /-- The contents of an operating system command, which the bell ends as well. -/
  | command
  deriving DecidableEq

namespace Sequence

/-- The sequence after one more ASCII character that is no control character, unless the character
completes it. -/
def next? : Sequence → Char → Option Sequence
  | escape, c =>
    if c < '0' then some intermediate
    else if c = '[' then some control
    else if c = ']' then some command
    else if c = 'P' then some device
    else if c = 'X' ∨ c = '^' ∨ c = '_' then some string
    else none
  | intermediate, c => if c < '0' then some intermediate else none
  | control, c => if c < '@' then some control else none
  | device, c =>
    if c < '0' then some deviceIntermediate
    else if c < '@' then some deviceParameters
    else some string
  | deviceParameters, c =>
    if c < '0' then some deviceIntermediate
    else if c < '<' then some deviceParameters
    else some string
  | deviceIntermediate, c => if c < '0' then some deviceIntermediate else some string
  | string, _ => some string
  | command, _ => some command

/-- Whether white space is printed in the middle of the sequence. -/
def isShort : Sequence → Bool
  | escape | intermediate | control => true
  | device | deviceParameters | deviceIntermediate | string | command => false

/-- Whether the sequence has a byte as its terminator that is part of a character outside ASCII. -/
def isEndedBy (s : Sequence) (c : Char) : Bool :=
  s == string && (String.utf8EncodeChar c).contains 0x9C

end Sequence

/-! ## What is printed -/

/-- Tabs, and the ends of lines and pages. -/
def isLayout (c : Char) : Bool := c == '\t' || c == '\n' || c == '\x0c' || c == '\r'

/-- Whether a character outside sequences is printed. -/
def isShown (c : Char) : Bool := isLayout c || (' ' ≤ c && c != '\x7f')

/-- Where a character stands. -/
inductive Position where
  /-- Outside sequences. -/
  | outside
  /-- In a sequence. -/
  | inside (s : Sequence)
  /-- In the text that interrupts a sequence. -/
  | paused (s : Sequence)
  deriving DecidableEq

namespace Position

/-- Whether a character is printed, and where the one after it stands. The escape character begins a
sequence wherever it stands, and there are two characters that cancel one. -/
def step (position : Position) (c : Char) : Bool × Position :=
  if c = '\x1b' then (false, inside .escape)
  else if c = '\x18' ∨ c = '\x1a' then (false, outside)
  else
    match position with
    | outside => (isShown c, outside)
    | paused s =>
      if '\x7f' < c then (true, outside)
      else if isShown c then (true, paused s)
      else (false, inside s)
    | inside s =>
      if '\x7f' < c then (false, if s.isEndedBy c then outside else inside s)
      else if ' ' ≤ c ∧ c ≠ '\x7f' then
        (false, match s.next? c with
          | some s => inside s
          | none => outside)
      else if s.isShort && isLayout c then (true, paused s)
      else if s = .command ∧ c = '\x07' then (false, outside)
      else (false, inside s)

/-- The characters of a text that are printed, the first of which stands at a position. -/
def shown (position : Position) : List Char → List Char
  | [] => []
  | c :: text =>
    match position.step c with
    | (true, position) => c :: shown position text
    | (false, position) => shown position text

end Position

/-- The characters of a text that are printed. -/
def shown (text : List Char) : List Char := Position.outside.shown text

end Synthesis.Text
