import Synthesis.Tree.Path

/-!
# The nodes of a tree and their paths

`subtrees` lists what stands in a tree, a node before its children and these in order, but not
where. `nodes` is the same list with the path of each node beside it (`map_snd_nodes`). It misses
nothing and makes nothing up:

> **the listed paths are the ones that lead somewhere** (`mem_nodes_iff`), each with the tree that
> it leads to.
-/

set_option autoImplicit false

namespace Synthesis

namespace Tree

variable {t u : Tree} {path : Path}

/-- A node with its path, as seen from one level further up. -/
def nodeUnder (i : Nat) (x : Path × Tree) : Path × Tree := (i :: x.1, x.2)

/-- All nodes in the order of `subtrees`, each with its path and the tree below it. -/
def nodes : Tree → List (Path × Tree)
  | hole c s => [([], hole c s)]
  | leaf a s => [([], leaf a s)]
  | not c s => ([], not c s) :: c.nodes.map (nodeUnder 0)
  | binary op l r s => ([], binary op l r s) :: (l.nodes.map (nodeUnder 0) ++
      r.nodes.map (nodeUnder 1))
  | ite c p n s => ([], ite c p n s) :: (c.nodes.map (nodeUnder 0) ++ p.nodes.map (nodeUnder 1) ++
      n.nodes.map (nodeUnder 2))

@[simp] theorem map_snd_nodes (t : Tree) : t.nodes.map (·.2) = t.subtrees := by
  have hunder (i : Nat) (u : Tree) :
      (u.nodes.map (nodeUnder i)).map (·.2) = u.nodes.map (·.2) := by
    rw [List.map_map]
    rfl
  induction t with
  | hole | leaf => rfl
  | not c s ih => simp only [nodes, subtrees, List.map_cons, hunder, ih]
  | binary op l r s ihl ihr =>
    simp only [nodes, subtrees, List.map_cons, List.map_append, hunder, ihl, ihr]
  | ite c p n s ihc ihp ihn =>
    simp only [nodes, subtrees, List.map_cons, List.map_append, hunder, ihc, ihp, ihn]

@[simp] theorem length_nodes (t : Tree) : t.nodes.length = t.size := by
  rw [← length_subtrees, ← map_snd_nodes, List.length_map]

theorem nil_mem_nodes_iff : ([], u) ∈ t.nodes ↔ u = t := by
  cases t <;> simp [nodes, nodeUnder]

theorem cons_mem_nodes_iff {i : Nat} :
    (i :: path, u) ∈ t.nodes ↔ ∃ c, t.children[i]? = some c ∧ (path, u) ∈ c.nodes := by
  cases t with
  | hole | leaf => simp [nodes, children]
  | not c s => rcases i with _ | i <;> simp [nodes, nodeUnder, children]
  | binary op l r s => rcases i with _ | _ | i <;> simp [nodes, nodeUnder, children]
  | ite c p n s => rcases i with _ | _ | _ | i <;> simp [nodes, nodeUnder, children]

/-- **The listed paths are the ones that lead somewhere.** -/
theorem mem_nodes_iff : (path, u) ∈ t.nodes ↔ t.at? path = some u := by
  induction path generalizing t with
  | nil => rw [nil_mem_nodes_iff, at?_nil, Option.some.injEq, eq_comm]
  | cons i path ih => simp only [cons_mem_nodes_iff, ih, at?_cons, Option.bind_eq_some_iff]

end Tree

end Synthesis
