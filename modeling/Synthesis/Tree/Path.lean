import Synthesis.Tree.Basic

/-!
# Places in a tree

A place is addressed by the child indices on the way down from the root. This module finds the first
hole of a tree, reads the node at a path, and replaces the subtree at a path.

Both recursions lean on the summaries. The search for a hole does not enter a subtree whose summary
says that it is complete, and a replacement builds only the nodes on the way to the replaced one
anew; everything beside the path, summaries included, is taken over as it is.
-/

set_option autoImplicit false

namespace Synthesis

/-- Child indices from the root downwards; the root's own path is empty. -/
abbrev Path := List Nat

/-- A place still to be filled, and what it takes. -/
structure Hole where
  path : Path
  category : Category
  deriving DecidableEq

/-- The hole as seen from one level further up. -/
def Hole.under (i : Nat) (h : Hole) : Hole := { h with path := i :: h.path }

/-- A tree that came out of replacing a subtree. -/
structure Regrowth where
  tree : Tree
  /-- How many nodes were built anew on the way to the replaced one. -/
  rebuilt : Nat
  deriving DecidableEq

/-- One more node is built on top. -/
def Regrowth.under (build : Tree → Tree) (g : Regrowth) : Regrowth :=
  ⟨build g.tree, g.rebuilt + 1⟩

namespace Tree

/-- The first hole in the order of `subtrees`, if the tree is not complete. -/
def firstHole? : Tree → Option Hole
  | hole c _ => some ⟨[], c⟩
  | leaf _ _ => none
  | not c s =>
    if s.complete then none else c.firstHole?.map (.under 0)
  | binary _ l r s =>
    if s.complete then none
    else l.firstHole?.map (.under 0) <|> r.firstHole?.map (.under 1)
  | ite c p n s =>
    if s.complete then none
    else c.firstHole?.map (.under 0) <|> p.firstHole?.map (.under 1) <|> n.firstHole?.map (.under 2)

/-- The tree below the node at a path, if the path leads to one. -/
def at? : Tree → Path → Option Tree
  | t, [] => some t
  | t, i :: path =>
    match t.children[i]? with
    | some c => c.at? path
    | none => none

/-- The tree with the subtree at a path replaced, if the path leads to one. -/
def substitute? (b : Bounds) : Tree → Path → Tree → Option Regrowth
  | _, [], s => some ⟨s, 0⟩
  | not c _, 0 :: path, s => (c.substitute? b path s).map (.under (mkNot b))
  | binary op l r _, 0 :: path, s => (l.substitute? b path s).map (.under (mkBinary b op · r))
  | binary op l r _, 1 :: path, s => (r.substitute? b path s).map (.under (mkBinary b op l ·))
  | ite c p n _, 0 :: path, s => (c.substitute? b path s).map (.under (mkIte · p n))
  | ite c p n _, 1 :: path, s => (p.substitute? b path s).map (.under (mkIte c · n))
  | ite c p n _, 2 :: path, s => (n.substitute? b path s).map (.under (mkIte c p ·))
  | _, _ :: _, _ => none

/-! ## First facts -/

@[simp] theorem at?_nil (t : Tree) : t.at? [] = some t := by
  cases t <;> rfl

theorem at?_cons (t : Tree) (i : Nat) (path : Path) :
    t.at? (i :: path) = t.children[i]?.bind (·.at? path) := by
  rw [at?]
  cases t.children[i]? <;> rfl

@[simp] theorem substitute?_nil (b : Bounds) (t s : Tree) : t.substitute? b [] s = some ⟨s, 0⟩ := by
  cases t <;> rfl

end Tree

end Synthesis
