import Mathlib.Logic.Relation
import Synthesis.Proofs.Grammar.Generation
import Synthesis.Proofs.Tree.Preorder

/-!
# Derivations

`g.Generates c t` says what a tree of the grammar looks like. Here it is said how one comes about:
from the start hole, by rewriting the first hole again and again, each time with an operator that
the grammar lists for the hole's category on top of fresh holes. A growth is one such step
(`rewrites_of_mem_growths`), and nothing in the definition of a step leans on summaries: which hole
is the first one is a matter of the order of paths.

The second half reads off what is promised of each node. An operator of a tree of the grammar has
operands of exactly the categories that it takes.
-/

set_option autoImplicit false

namespace Synthesis

namespace Grammar

variable {g : Grammar} {b : Bounds} {c : Category} {t u : Tree} {op : Operator}

/-! ## Rewriting the first hole -/

/-- The first hole is replaced by an operator of its category on top of fresh holes. -/
def Rewrites (g : Grammar) (b : Bounds) (t u : Tree) : Prop :=
  ∃ h op r, t.IsFirstHole h ∧ op ∈ g.operators h.category ∧
    t.substitute? b h.path (.sprout b op) = some r ∧ r.tree = u

/-- The tree is what the start hole has become after some number of rewritings. -/
def Derives (g : Grammar) (b : Bounds) (t : Tree) : Prop :=
  Relation.ReflTransGen (g.Rewrites b) (.mkHole b start) t

theorem rewrites_of_mem_growths (ht : t.Built b) (hu : u ∈ t.growths g b) :
    g.Rewrites b t u := by
  obtain ⟨h, op, r, hh, hop, hr, heq⟩ := Tree.mem_growths_iff.1 hu
  exact ⟨h, op, r, Tree.isFirstHole_of_firstHole? ht.assembled hh, hop, hr, heq⟩

/-! ## Operands fit -/

/-- What is generated from a category has a root of that category. -/
theorem Generates.category_symbol (h : g.Generates c t) : t.symbol.category = c := by
  cases h with
  | hole c s => rfl
  | leaf s hop => exact category_of_mem_operators hop
  | not s hop _ => exact category_of_mem_operators hop
  | binary s hop _ _ => exact category_of_mem_operators hop
  | ite s hop _ _ _ => exact category_of_mem_operators hop

theorem Generates.categories_children (h : g.Generates c t) (hop : t.symbol = .op op) :
    t.children.map (·.symbol.category) = op.signature := by
  cases h with
  | hole c s => exact absurd hop (by simp [Tree.symbol])
  | leaf s _ =>
    obtain rfl := Symbol.op.inj hop
    rfl
  | not s _ ht =>
    obtain rfl := Symbol.op.inj hop
    simp only [Tree.children, List.map_cons, List.map_nil, ht.category_symbol]
    rfl
  | binary s _ hl hr =>
    obtain rfl := Symbol.op.inj hop
    simp only [Tree.children, List.map_cons, List.map_nil, hl.category_symbol, hr.category_symbol]
    rfl
  | ite s _ ht hp hn =>
    obtain rfl := Symbol.op.inj hop
    simp only [Tree.children, List.map_cons, List.map_nil, ht.category_symbol, hp.category_symbol,
      hn.category_symbol]
    rfl

theorem Generates.exists_of_mem_children (h : g.Generates c t) {u : Tree} (hu : u ∈ t.children) :
    ∃ k, g.Generates k u := by
  cases h with
  | hole c s => exact absurd hu (by simp [Tree.children])
  | leaf s _ => exact absurd hu (by simp [Tree.children])
  | not s _ ht =>
    obtain rfl := List.mem_singleton.1 hu
    exact ⟨_, ht⟩
  | binary s _ hl hr =>
    simp only [Tree.children, List.mem_cons, List.not_mem_nil, or_false] at hu
    rcases hu with rfl | rfl
    · exact ⟨_, hl⟩
    · exact ⟨_, hr⟩
  | ite s _ ht hp hn =>
    simp only [Tree.children, List.mem_cons, List.not_mem_nil, or_false] at hu
    rcases hu with rfl | rfl | rfl
    · exact ⟨_, ht⟩
    · exact ⟨_, hp⟩
    · exact ⟨_, hn⟩

/-- What stands below a node of a generated tree is generated from some category. -/
theorem Generates.of_mem_subtrees (h : g.Generates c t) {u : Tree} (hu : u ∈ t.subtrees) :
    ∃ k, g.Generates k u := by
  refine Tree.forall_mem_subtrees (P := fun u => ∃ k, g.Generates k u) ?_ ⟨c, h⟩ hu
  rintro t ⟨k, h⟩ u hu
  exact h.exists_of_mem_children hu

end Grammar

end Synthesis
