/-!
# Written integers

An integer is one or more ASCII digits, read in base ten, with at most one sign in front. Leading
zeros are allowed, digit groups and surrounding white space are not, and a number outside the range
of its type is no number at all.
-/

set_option autoImplicit false

namespace Synthesis.Text

/-- The number written by digits alone, of which there must be at least one. -/
def readDigits? (text : List Char) : Option Nat :=
  if text.isEmpty || !text.all Char.isDigit then none
  else some (text.foldl (fun n c => n * 10 + (c.toNat - '0'.toNat)) 0)

/-- The number written by digits with an optional plus sign in front. -/
def readNat? : List Char → Option Nat
  | '+' :: text => readDigits? text
  | text => readDigits? text

/-- The number written by digits with an optional sign in front. -/
def readInt? : List Char → Option Int
  | '-' :: text => (readDigits? text).map fun n => -n
  | text => (readNat? text).map fun n => n

/-- The 64-bit signed number written by a text, if it fits. -/
def readInt64? (text : List Char) : Option Int64 :=
  match readInt? text with
  | some i =>
    if Int64.minValue.toInt ≤ i ∧ i ≤ Int64.maxValue.toInt then some (.ofInt i) else none
  | none => none

/-- The 64-bit unsigned number written by a text, if it fits. -/
def readWord? (text : List Char) : Option Nat :=
  match readNat? text with
  | some n => if n < UInt64.size then some n else none
  | none => none

end Synthesis.Text
