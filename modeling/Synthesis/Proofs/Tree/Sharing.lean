import Synthesis.Proofs.Tree.Nodes
import Synthesis.Proofs.Tree.Preorder
import Synthesis.Proofs.Tree.Substitution

/-!
# What a grown tree has in common with the old one

A replacement builds the nodes on the way anew and takes over whatever stands beside the path. The
price of a growth is the number of nodes that it does not take over. That number is counted while
the tree is built, and here it is read off the finished trees, node by node:

> **everything but the new subtree and the nodes above it is in the old tree, at the same place**
> (`unshared_of_substitute?`).
-/

set_option autoImplicit false

namespace Synthesis

namespace Tree

variable {b : Bounds} {t u s c : Tree} {path : Path} {i : Nat} {g : Regrowth}

/-- The tree has something else at the path than the given subtree, or nothing at all. -/
def lacks (t : Tree) (x : Path × Tree) : Bool := decide (t.at? x.1 ≠ some x.2)

/-- The number of nodes of the second tree that the first one does not have at the same place. -/
def unshared (t u : Tree) : Nat := u.nodes.countP t.lacks

@[simp] theorem unshared_self (t : Tree) : t.unshared t = 0 := by
  refine List.countP_eq_zero.2 ?_
  rintro ⟨path, u⟩ hmem
  simp [lacks, mem_nodes_iff.1 hmem]

/-- Below a child it is the nodes of that child that count, and where there is no child all of
them. -/
theorem countP_lacks_nodeUnder (t u : Tree) (i : Nat) :
    u.nodes.countP (t.lacks ∘ nodeUnder i) = t.children[i]?.elim u.size (·.unshared u) := by
  cases hc : t.children[i]? with
  | none =>
    rw [Option.elim_none, ← length_nodes, List.countP_eq_length]
    intro x _
    simp [lacks, nodeUnder, at?_cons, hc]
  | some c =>
    refine congrArg (List.countP · u.nodes) (funext fun x => ?_)
    simp [lacks, nodeUnder, at?_cons, hc]

/-- A root that differs counts, and so does what differs below it. -/
theorem unshared_of_ne {below : List (Path × Tree)} (hne : t ≠ u)
    (hnodes : u.nodes = ([], u) :: below) : t.unshared u = below.countP t.lacks + 1 := by
  rw [unshared, hnodes, List.countP_cons_of_pos]
  rw [lacks, at?_nil, decide_eq_true_eq]
  exact fun h => hne (Option.some.inj h)

/-- Nothing in an operator's tree is at its place in a hole. -/
theorem unshared_hole {k : Category} {sum : Summary} (hs : ∃ op, s.symbol = .op op) :
    (hole k sum).unshared s = s.size := by
  rw [← length_nodes]
  refine List.countP_eq_length.2 ?_
  rintro ⟨path, u⟩ hmem
  refine decide_eq_true fun hat => ?_
  cases path with
  | nil =>
    have hroot : hole k sum = u := Option.some.inj hat
    rw [nil_mem_nodes_iff, ← hroot] at hmem
    exact ne_hole_of_symbol hs hmem.symm
  | cons i path => exact absurd hat (by simp [at?_cons, children])

/-- A node on the way has the new subtree below it, and so it differs from the one that was
there. -/
theorem ne_of_substitute? (hat : t.at? path = some u) (hne : u ≠ s)
    (h : t.substitute? b path s = some g) : t ≠ g.tree := by
  intro heq
  have hfound := at?_of_substitute? h
  rw [← heq, hat] at hfound
  exact hne (Option.some.inj hfound)

/-- **Everything but the new subtree and the nodes above it is taken over.** -/
theorem unshared_of_substitute? (hat : t.at? path = some u) (hne : u ≠ s)
    (h : t.substitute? b path s = some g) :
    t.unshared g.tree = u.unshared s + path.length := by
  fun_induction substitute? b t path s generalizing g with
  | case1 t s =>
    rw [at?_nil] at hat
    obtain rfl := Option.some.inj hat
    obtain rfl := Option.some.inj h
    rfl
  | case2 c sum path s ih | case3 op l r sum path s ih | case4 op l r sum path s ih
  | case5 c p n sum path s ih | case6 c p n sum path s ih | case7 c p n sum path s ih =>
    have hroot := ne_of_substitute? hat hne h
    obtain ⟨r', hr', rfl⟩ := Option.map_eq_some_iff.1 h
    rw [unshared_of_ne hroot rfl, List.length_cons, ← Nat.add_assoc, ← ih hat hne hr']
    simp [countP_lacks_nodeUnder, children]
  | case8 => exact absurd h (by simp)

end Tree

end Synthesis
