/-!
# The symbols of the expression language

Programs are integer expressions over three variables and three literals. This module holds the
vocabulary: the two syntactic categories, the operators with their names and signatures, and the
symbols a tree node can carry (an operator, or a hole of some category that is still to be filled).

Operators are grouped by the number of operands they take, so that a tree can give each group a
constructor with exactly that many children. Every name is read back by the matching `ofName?`.
-/

set_option autoImplicit false

namespace Synthesis

/-! ## Categories -/

/-- What an expression denotes: a number or a truth value. -/
inductive Category where
  | numeric
  | boolean
  deriving DecidableEq

/-- The one-letter name, used in grammars and for holes in printed trees. -/
def Category.name : Category → String
  | .numeric => "E"
  | .boolean => "B"

/-- The category with the given name. -/
def Category.ofName? : String → Option Category
  | "E" => some .numeric
  | "B" => some .boolean
  | _ => none

/-- The word for the category's values in messages. -/
def Category.adjective : Category → String
  | .numeric => "numeric"
  | .boolean => "boolean"

/-! ## Variables and literals -/

/-- The three inputs a program can read. -/
inductive Variable where
  | x
  | y
  | z
  deriving DecidableEq

namespace Variable

/-- Every variable, in the order in which inputs are listed and missing ones are looked for. -/
def all : List Variable := [.x, .y, .z]

/-- The name a variable has in programs and in examples. -/
def name : Variable → String
  | x => "x"
  | y => "y"
  | z => "z"

/-- The position of the variable in `all`. -/
def index : Variable → Nat
  | x => 0
  | y => 1
  | z => 2

/-- The variable with the given name. -/
def ofName? : String → Option Variable
  | "x" => some x
  | "y" => some y
  | "z" => some z
  | _ => none

theorem mem_all (v : Variable) : v ∈ all := by
  cases v <;> decide

end Variable

/-- The integer literals of the language. -/
inductive Literal where
  | one
  | two
  | three
  deriving DecidableEq

namespace Literal

/-- The digit that writes the literal. -/
def name : Literal → String
  | one => "1"
  | two => "2"
  | three => "3"

/-- The number the literal stands for. -/
def value : Literal → Int64
  | one => 1
  | two => 2
  | three => 3

/-- The literal written by the given text. -/
def ofName? : String → Option Literal
  | "1" => some one
  | "2" => some two
  | "3" => some three
  | _ => none

end Literal

/-! ## Operators -/

/-- An operator without operands. -/
inductive Atom where
  | var (v : Variable)
  | lit (l : Literal)
  deriving DecidableEq

/-- The variable's or literal's own name. -/
def Atom.name : Atom → String
  | .var v => v.name
  | .lit l => l.name

/-- An operator with two operands of one category. -/
inductive BinaryOperator where
  | add
  | multiply
  | lt
  | eq
  | and
  | or
  deriving DecidableEq

namespace BinaryOperator

/-- The name in front of the operands. -/
def name : BinaryOperator → String
  | add => "Add"
  | multiply => "Multiply"
  | lt => "Lt"
  | eq => "Eq"
  | and => "And"
  | or => "Or"

/-- Category of the result. -/
def category : BinaryOperator → Category
  | add | multiply => .numeric
  | lt | eq | and | or => .boolean

/-- Category that both operands should have. -/
def operands : BinaryOperator → Category
  | add | multiply | lt | eq => .numeric
  | and | or => .boolean

end BinaryOperator

/-- An operator of the language. -/
inductive Operator where
  | atom (a : Atom)
  | not
  | binary (op : BinaryOperator)
  | ite
  deriving DecidableEq

namespace Operator

/-- The operator's name in grammars and in printed trees. -/
def name : Operator → String
  | atom a => a.name
  | not => "Not"
  | binary op => op.name
  | ite => "Ite"

/-- Category of the value the operator produces. -/
def category : Operator → Category
  | atom _ | ite => .numeric
  | not => .boolean
  | binary op => op.category

/-- The categories of the operands the operator expects, in order. -/
def signature : Operator → List Category
  | atom _ => []
  | not => [.boolean]
  | binary op => [op.operands, op.operands]
  | ite => [.boolean, .numeric, .numeric]

/-- The number of operands. -/
def arity (op : Operator) : Nat := op.signature.length

/-- The operator with the given name. -/
def ofName? (name : String) : Option Operator :=
  match name with
  | "Not" => some not
  | "Add" => some (binary .add)
  | "Multiply" => some (binary .multiply)
  | "Lt" => some (binary .lt)
  | "Eq" => some (binary .eq)
  | "And" => some (binary .and)
  | "Or" => some (binary .or)
  | "Ite" => some ite
  | _ =>
    ((Variable.ofName? name).map (atom <| .var ·)).or
      ((Literal.ofName? name).map (atom <| .lit ·))

end Operator

/-! ## Symbols -/

/-- What a node of a tree carries. Operators stay in the finished program; holes wait for an
operator of their category. -/
inductive Symbol where
  | op (op : Operator)
  | hole (category : Category)
  deriving DecidableEq

namespace Symbol

/-- The operator's name, or the category's for a hole. -/
def name : Symbol → String
  | op o => o.name
  | hole c => c.name

/-- Category of the value the symbol stands for. -/
def category : Symbol → Category
  | op o => o.category
  | hole c => c

/-- Operators are the terminal symbols of the language, holes the non-terminal ones. -/
def isTerminal : Symbol → Bool
  | op _ => true
  | hole _ => false

end Symbol

/-! ## Names read back -/

@[simp] theorem Category.ofName?_name (c : Category) : Category.ofName? c.name = some c := by
  cases c <;> rfl

@[simp] theorem Variable.ofName?_name (v : Variable) : Variable.ofName? v.name = some v := by
  cases v <;> rfl

@[simp] theorem Literal.ofName?_name (l : Literal) : Literal.ofName? l.name = some l := by
  cases l <;> rfl

@[simp] theorem Operator.ofName?_name (op : Operator) : Operator.ofName? op.name = some op := by
  cases op with
  | atom a => cases a with
    | var v => cases v <;> rfl
    | lit l => cases l <;> rfl
  | binary op => cases op <;> rfl
  | not | ite => rfl

end Synthesis
