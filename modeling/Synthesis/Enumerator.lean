import Synthesis.Grammar.Basic
import Synthesis.Tree.Path
import Synthesis.Worklist

/-!
# Best-first enumeration

An enumerator grows the trees of a grammar, cheapest first. It starts with a single hole. Popping
takes the tree at the head of the line; expanding a tree fills its first hole in every way the
grammar allows and puts the results into line. A result whose bound is below the target is dropped
at once, because nothing that it can still become reaches the largest output asked for.

The caller decides which trees to expand, and may put a popped tree back where it was. The
enumerator counts what it does.
-/

set_option autoImplicit false

namespace Synthesis

/-- What an enumerator has done so far. -/
structure Stats where
  /-- Nodes built, fresh holes and the nodes rebuilt on the way to them included. -/
  nodesBuilt : Nat
  /-- Trees that were put into line for the first time. -/
  enqueued : Nat
  /-- Trees that were dropped for their bound. -/
  pruned : Nat
  /-- Trees that were taken out of line and not put back. -/
  popped : Nat
  /-- Trees whose first hole was filled. -/
  expanded : Nat
  deriving DecidableEq

namespace Stats

/-- Nothing has been done. -/
def zero : Stats := ⟨0, 0, 0, 0, 0⟩

/-- The counters in order. -/
def toList (s : Stats) : List Nat := [s.nodesBuilt, s.enqueued, s.pruned, s.popped, s.expanded]

/-- The form used in messages. -/
def text (s : Stats) : String :=
  "Stats \x7b nodes_built: " ++ toString s.nodesBuilt ++ ", enqueued: " ++ toString s.enqueued ++
    ", pruned: " ++ toString s.pruned ++ ", popped: " ++ toString s.popped ++
    ", expanded: " ++ toString s.expanded ++ " \x7d"

end Stats

/-- What became of the trees that one expansion made. -/
structure Expansion where
  kept : Nat
  pruned : Nat
  deriving DecidableEq

/-- A tree made by an expansion. -/
structure Candidate where
  tree : Tree
  /-- How many of its nodes were built for it. -/
  built : Nat
  deriving DecidableEq

/-- How many nodes were built for several candidates. -/
def Candidate.totalBuilt : List Candidate → Nat
  | [] => 0
  | c :: cs => c.built + totalBuilt cs

/-- The trees in line, and what is needed to grow them. -/
structure Enumerator where
  grammar : Grammar
  bounds : Bounds
  worklist : Worklist
  /-- The number that the next tree discovered will be given. -/
  nextNumber : Nat
  /-- The number of the tree popped last, as long as it has not been put back. -/
  lastPopped : Option Nat
  stats : Stats

namespace Enumerator

/-- Puts a newly discovered tree into line. -/
def push (e : Enumerator) (t : Tree) : Enumerator :=
  { e with
    worklist := e.worklist.insert t e.nextNumber
    nextNumber := e.nextNumber + 1
    stats := { e.stats with enqueued := e.stats.enqueued + 1 } }

/-- An enumerator that has built a hole of the start category, and nothing else. -/
def new (g : Grammar) (b : Bounds) : Enumerator :=
  push ⟨g, b, .empty, 0, none, { Stats.zero with nodesBuilt := 1 }⟩ (.mkHole b Grammar.start)

/-- Takes the tree at the head of the line, if there is one. -/
def pop? (e : Enumerator) : Option (Tree × Enumerator) :=
  e.worklist.first?.map fun (place, t) =>
    (t, { e with
      worklist := e.worklist.erase place
      lastPopped := some place.number
      stats := { e.stats with popped := e.stats.popped + 1 } })

/-- Puts a tree back into line under the number of the tree popped last, which is possible once. -/
def unpop? (e : Enumerator) (t : Tree) : Option Enumerator :=
  e.lastPopped.map fun number =>
    { e with
      worklist := e.worklist.insert t number
      lastPopped := none
      stats := { e.stats with popped := e.stats.popped - 1 } }

/-- The tree with a hole filled by an operator on top of fresh holes. -/
def fill? (e : Enumerator) (t : Tree) (h : Hole) (op : Operator) : Option Candidate :=
  (t.substitute? e.bounds h.path (.sprout e.bounds op)).map fun g =>
    ⟨g.tree, 1 + op.arity + g.rebuilt⟩

/-- The ways to fill a hole of a tree, in the order of the grammar. -/
def candidates (e : Enumerator) (t : Tree) (h : Hole) : List Candidate :=
  (e.grammar.operators h.category).filterMap (e.fill? t h)

/-- Whether a tree can still reach the largest output asked for. -/
def admits (e : Enumerator) (c : Candidate) : Bool := decide (e.bounds.target ≤ c.tree.bound)

/-- Puts the admitted ones among the candidates into line, and counts. Nodes count as built whether
their tree is kept or not. -/
def settle (e : Enumerator) (candidates : List Candidate) : Expansion × Enumerator :=
  let kept := candidates.filter e.admits
  let pruned := candidates.length - kept.length
  let grown := kept.foldl (fun e c => e.push c.tree) e
  (⟨kept.length, pruned⟩,
    { grown with
      stats := { grown.stats with
        nodesBuilt := grown.stats.nodesBuilt + Candidate.totalBuilt candidates
        pruned := grown.stats.pruned + pruned
        expanded := grown.stats.expanded + 1 } })

/-- Fills the first hole of a tree in every way and settles what becomes of the results. A complete
tree has nothing to fill, and then nothing is done or counted. -/
def expand (e : Enumerator) (t : Tree) : Expansion × Enumerator :=
  match t.firstHole? with
  | none => (⟨0, 0⟩, e)
  | some h => e.settle (e.candidates t h)

end Enumerator

end Synthesis
