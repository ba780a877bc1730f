import Synthesis.Bounds
import Synthesis.Cost.Weight

/-!
# Program trees

A tree is a program, or a program in the making: some of its places may still be holes. Every node
carries a summary of the subtree below it, worked out once when the node is built: what the subtree
costs, whether it is complete, and a bound. A complete tree evaluates to no larger magnitude than
its bound. Of a tree with holes the bound tells less. A hole has the target for its bound, and what
fills it may well be larger; only if the bound of the tree is below the target is there something to
be said, which is that the target is out of its reach.

The constructors of `Tree` take any summary. Trees are built with `mkHole`, `mkLeaf`, `mkNot`,
`mkBinary` and `mkIte`, which derive the summary from the children and the bounds of the run;
`annotate` derives all summaries of a tree anew, so `t.annotate b = t` says that every summary in
`t` is the one that `b` gives.

Children may be of any category. Grammars only grow trees whose children fit, but a tree in which
they do not is still a tree, and evaluating it is what reports the misfit.
-/

set_option autoImplicit false

namespace Synthesis

/-- What a node knows about the subtree below it. -/
structure Summary where
  /-- The weights of all its symbols, added up from the leaves to the root. -/
  cost : Cost
  /-- There is no hole in it. -/
  complete : Bool
  /-- The largest magnitude that it may evaluate to if it is complete. If it is not, a completion of
  it may exceed the bound, unless the bound is below the target. -/
  bound : Value
  deriving DecidableEq

/-- A possibly partial program, with a summary at every node. -/
inductive Tree where
  | hole (category : Category) (summary : Summary)
  | leaf (atom : Atom) (summary : Summary)
  | not (operand : Tree) (summary : Summary)
  | binary (op : BinaryOperator) (left right : Tree) (summary : Summary)
  | ite (condition positive negative : Tree) (summary : Summary)
  deriving DecidableEq

namespace Tree

/-! ## Reading a node -/

/-- The summary at the root. -/
def summary : Tree → Summary
  | hole _ s | leaf _ s | not _ s | binary _ _ _ s | ite _ _ _ s => s

/-- The cost of the whole tree. -/
def cost (t : Tree) : Cost := t.summary.cost

/-- Whether the tree has no hole, as recorded at the root. -/
def isComplete (t : Tree) : Bool := t.summary.complete

/-- The bound of the whole tree, as recorded at the root. -/
def bound (t : Tree) : Value := t.summary.bound

/-- The symbol at the root. -/
def symbol : Tree → Symbol
  | hole c _ => .hole c
  | leaf a _ => .op (.atom a)
  | not _ _ => .op .not
  | binary op _ _ _ => .op (.binary op)
  | ite _ _ _ _ => .op .ite

/-- The subtrees right below the root, in order. -/
def children : Tree → List Tree
  | hole _ _ | leaf _ _ => []
  | not c _ => [c]
  | binary _ l r _ => [l, r]
  | ite c p n _ => [c, p, n]

/-! ## Building trees -/

/-- A hole. What it will become is not known, and may exceed the target that it has for a bound. -/
def mkHole (b : Bounds) (c : Category) : Tree :=
  hole c ⟨0, false, b.target⟩

/-- A variable or a literal. -/
def mkLeaf (b : Bounds) (a : Atom) : Tree :=
  leaf a ⟨(Operator.atom a).weight, true, b.ofAtom a⟩

/-- A negation. -/
def mkNot (b : Bounds) (c : Tree) : Tree :=
  not c ⟨Operator.not.weight + c.cost, c.isComplete, b.target⟩

/-- An operator applied to two operands. -/
def mkBinary (b : Bounds) (op : BinaryOperator) (l r : Tree) : Tree :=
  binary op l r ⟨(Operator.binary op).weight + (l.cost + r.cost), l.isComplete && r.isComplete,
    b.ofBinary op l.bound r.bound⟩

/-- A conditional, with the larger of the bounds of its branches, whatever the run's bounds are. -/
def mkIte (c p n : Tree) : Tree :=
  ite c p n ⟨Operator.ite.weight + (c.cost + p.cost + n.cost),
    c.isComplete && p.isComplete && n.isComplete, max p.bound n.bound⟩

/-- A symbol on top of the given children, if it takes that many. -/
def build? (b : Bounds) : Symbol → List Tree → Option Tree
  | .hole c, [] => some (mkHole b c)
  | .op (.atom a), [] => some (mkLeaf b a)
  | .op .not, [c] => some (mkNot b c)
  | .op (.binary op), [l, r] => some (mkBinary b op l r)
  | .op .ite, [c, p, n] => some (mkIte c p n)
  | _, _ => none

/-- An operator on top of a fresh hole for each of its operands. -/
def sprout (b : Bounds) : Operator → Tree
  | .atom a => mkLeaf b a
  | .not => mkNot b (mkHole b .boolean)
  | .binary op => mkBinary b op (mkHole b op.operands) (mkHole b op.operands)
  | .ite => mkIte (mkHole b .boolean) (mkHole b .numeric) (mkHole b .numeric)

/-- The same symbols with every summary derived anew. -/
def annotate (b : Bounds) : Tree → Tree
  | hole c _ => mkHole b c
  | leaf a _ => mkLeaf b a
  | not c _ => mkNot b (c.annotate b)
  | binary op l r _ => mkBinary b op (l.annotate b) (r.annotate b)
  | ite c p n _ => mkIte (c.annotate b) (p.annotate b) (n.annotate b)

/-! ## Whole trees -/

/-- The number of nodes. -/
def size : Tree → Nat
  | hole _ _ | leaf _ _ => 1
  | not c _ => c.size + 1
  | binary _ l r _ => l.size + r.size + 1
  | ite c p n _ => c.size + p.size + n.size + 1

/-- All nodes, each with the tree below it, a node before its children and these in order. -/
def subtrees : Tree → List Tree
  | hole c s => [hole c s]
  | leaf a s => [leaf a s]
  | not c s => not c s :: c.subtrees
  | binary op l r s => binary op l r s :: (l.subtrees ++ r.subtrees)
  | ite c p n s => ite c p n s :: (c.subtrees ++ p.subtrees ++ n.subtrees)

/-- The printed form: a name, followed by the operands in parentheses if there are any. -/
def text : Tree → String
  | hole c _ => c.name
  | leaf a _ => a.name
  | not c _ => Operator.not.name ++ "(" ++ c.text ++ ")"
  | binary op l r _ => op.name ++ "(" ++ l.text ++ ", " ++ r.text ++ ")"
  | ite c p n _ => Operator.ite.name ++ "(" ++ c.text ++ ", " ++ p.text ++ ", " ++ n.text ++ ")"

/-! ## First facts -/

@[simp] theorem length_subtrees (t : Tree) : t.subtrees.length = t.size := by
  induction t with
  | hole | leaf => rfl
  | not c s ih => simp [subtrees, size, ih]
  | binary op l r s ihl ihr => simp [subtrees, size, ihl, ihr]
  | ite c p n s ihc ihp ihn => simp [subtrees, size, ihc, ihp, ihn, Nat.add_assoc]

/-- A symbol takes exactly as many children as its signature has categories. -/
theorem isSome_build?_op (b : Bounds) (op : Operator) (ts : List Tree) :
    (build? b (.op op) ts).isSome ↔ ts.length = op.arity := by
  cases op <;> rcases ts with _ | ⟨_, _ | ⟨_, _ | ⟨_, _ | _⟩⟩⟩ <;>
    simp [build?, Operator.arity, Operator.signature]

/-- A sprout is the operator on top of holes of its signature's categories. -/
theorem build?_signature (b : Bounds) (op : Operator) :
    build? b (.op op) (op.signature.map (mkHole b)) = some (sprout b op) := by
  cases op <;> rfl

end Tree

/-! ## Programs -/

/-- A tree without holes, which can be run. -/
structure Program where
  tree : Tree
  complete : tree.isComplete = true
  deriving DecidableEq

namespace Program

/-- The tree as a program, unless it still has holes. -/
def ofTree? (t : Tree) : Option Program :=
  if h : t.isComplete = true then some ⟨t, h⟩ else none

/-- The printed form of the program's tree. -/
def text (p : Program) : String := p.tree.text

end Program

end Synthesis
