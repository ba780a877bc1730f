import Synthesis.Symbol

/-!
# Grammars

A grammar says which operators may fill a hole of each category. The order in which it lists them is
the order in which candidates are made, so it is part of what makes a run reproducible. Programs are
numeric: every grammar starts from a numeric hole.
-/

set_option autoImplicit false

namespace Synthesis

/-- An operator that produces a value of the given category. -/
abbrev Production (c : Category) := { op : Operator // op.category = c }

/-- The productions of each category, in order. -/
structure Grammar where
  numeric : List (Production .numeric)
  boolean : List (Production .boolean)
  deriving DecidableEq

namespace Grammar

/-- The category that a run starts from. -/
def start : Category := .numeric

/-- The productions of one category. -/
def productions (g : Grammar) : (c : Category) → List (Production c)
  | .numeric => g.numeric
  | .boolean => g.boolean

/-- The operators of one category. -/
def operators (g : Grammar) (c : Category) : List Operator := (g.productions c).map (·.val)

/-- Integer arithmetic with conditionals: all operators of the language. -/
def arithmetic : Grammar where
  numeric :=
    [⟨.atom (.var .x), rfl⟩, ⟨.atom (.var .y), rfl⟩, ⟨.atom (.var .z), rfl⟩,
      ⟨.atom (.lit .one), rfl⟩, ⟨.atom (.lit .two), rfl⟩, ⟨.atom (.lit .three), rfl⟩,
      ⟨.ite, rfl⟩, ⟨.binary .add, rfl⟩, ⟨.binary .multiply, rfl⟩]
  boolean :=
    [⟨.binary .lt, rfl⟩, ⟨.binary .eq, rfl⟩, ⟨.not, rfl⟩, ⟨.binary .and, rfl⟩, ⟨.binary .or, rfl⟩]

/-- The categories of the holes that can come up: the start, and whatever some production takes. -/
def used (g : Grammar) : List Category :=
  start :: (g.operators .numeric ++ g.operators .boolean).flatMap Operator.signature

/-- A category that is used although nothing can fill its holes. -/
def undefined? (g : Grammar) : Option Category :=
  g.used.find? fun c => (g.operators c).isEmpty

/-- The operators of a category produce values of that category. -/
theorem category_of_mem_operators {g : Grammar} {c : Category} {op : Operator}
    (h : op ∈ g.operators c) : op.category = c := by
  obtain ⟨p, _, rfl⟩ := List.mem_map.1 h
  exact p.property

end Grammar

end Synthesis
