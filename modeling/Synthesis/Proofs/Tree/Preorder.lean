import Synthesis.Proofs.Tree.FirstHole

/-!
# The first hole comes first

A walk over a tree that meets every node before its children, and these in order, meets the nodes in
the lexicographic order of their paths. The hole that is filled next is found by such a walk, but
one that turns back wherever a summary says that the subtree is complete. That nothing is passed
over this way is the statement here:

> **all other holes are at later paths** (`isFirstHole_of_firstHole?`).

One lemma carries it from a child to its parent (`IsFirstHole.under`), whatever the node is: the
hole is first in the whole tree if it is first in its child and the children before that one have
no holes.
-/

set_option autoImplicit false

namespace Synthesis

namespace Tree

variable {t c : Tree} {h : Hole} {path : Path} {i : Nat}

/-- No path leads to a hole. -/
def HoleFree (t : Tree) : Prop := ∀ path c s, t.at? path ≠ some (.hole c s)

/-- A hole of the category is at the path, and all other holes are at later ones. -/
def IsFirstHole (t : Tree) (h : Hole) : Prop :=
  (∃ s, t.at? h.path = some (.hole h.category s)) ∧
    ∀ path c s, t.at? path = some (.hole c s) → path ≠ h.path → h.path < path

/-- A path into a tree starts with a step to a child. -/
theorem exists_child_of_at? {u : Tree} (hat : t.at? (i :: path) = some u) :
    ∃ c, t.children[i]? = some c ∧ c.at? path = some u := by
  rw [at?_cons] at hat
  exact Option.bind_eq_some_iff.1 hat

/-! ## Without holes -/

/-- A tree with an operator at its root is no hole. -/
theorem ne_hole_of_symbol (hroot : ∃ op, t.symbol = .op op) {k : Category} {s : Summary} :
    t ≠ .hole k s := by
  rintro rfl
  obtain ⟨op, hop⟩ := hroot
  exact absurd hop (by simp [symbol])

theorem holeFree_of_children (hroot : ∃ op, t.symbol = .op op)
    (hchildren : ∀ c ∈ t.children, c.HoleFree) : t.HoleFree := by
  intro path k s hat
  cases path with
  | nil =>
    rw [at?_nil] at hat
    exact ne_hole_of_symbol hroot (Option.some.inj hat)
  | cons i path =>
    obtain ⟨c, hc, hat⟩ := exists_child_of_at? hat
    exact hchildren c (List.mem_of_getElem? hc) path k s hat

theorem holeFree_of_complete (ht : Assembled t) : t.isComplete = true → t.HoleFree := by
  induction ht with
  | hole b c => exact fun hcomplete => absurd hcomplete Bool.false_ne_true
  | leaf b a => exact fun _ => holeFree_of_children ⟨_, rfl⟩ (by simp [mkLeaf, children])
  | not b _ ih =>
    intro hcomplete
    refine holeFree_of_children ⟨_, rfl⟩ ?_
    simp only [mkNot, children, List.mem_singleton, forall_eq]
    exact ih hcomplete
  | binary b op _ _ ihl ihr =>
    intro hcomplete
    obtain ⟨hl, hr⟩ := (Bool.and_eq_true _ _).mp hcomplete
    refine holeFree_of_children ⟨_, rfl⟩ ?_
    simp only [mkBinary, children, List.mem_cons, List.not_mem_nil, or_false, forall_eq_or_imp,
      forall_eq]
    exact ⟨ihl hl, ihr hr⟩
  | ite _ _ _ ihc ihp ihn =>
    intro hcomplete
    obtain ⟨hboth, hn⟩ := (Bool.and_eq_true _ _).mp hcomplete
    obtain ⟨hc, hp⟩ := (Bool.and_eq_true _ _).mp hboth
    refine holeFree_of_children ⟨_, rfl⟩ ?_
    simp only [mkIte, children, List.mem_cons, List.not_mem_nil, or_false, forall_eq_or_imp,
      forall_eq]
    exact ⟨ihc hc, ihp hp, ihn hn⟩

theorem holeFree_of_firstHole?_eq_none (ht : Assembled t) (hnone : t.firstHole? = none) :
    t.HoleFree := by
  cases hcomplete : t.isComplete with
  | true => exact holeFree_of_complete ht hcomplete
  | false =>
    obtain ⟨h, hh⟩ := exists_firstHole? ht hcomplete
    exact absurd (hnone.symm.trans hh) (by simp)

/-! ## From a child to its parent -/

theorem IsFirstHole.under (h' : c.IsFirstHole h) (hroot : ∃ op, t.symbol = .op op)
    (hc : t.children[i]? = some c)
    (hbefore : ∀ j < i, ∀ d, t.children[j]? = some d → d.HoleFree) :
    t.IsFirstHole (h.under i) := by
  obtain ⟨⟨s, hat⟩, hlater⟩ := h'
  refine ⟨⟨s, (at?_under hc h).trans hat⟩, ?_⟩
  intro path k s' hhole hne
  cases path with
  | nil =>
    rw [at?_nil] at hhole
    exact absurd (Option.some.inj hhole) (ne_hole_of_symbol hroot)
  | cons j path =>
    obtain ⟨d, hd, hhole⟩ := exists_child_of_at? hhole
    rw [path_under] at hne ⊢
    rcases Nat.lt_trichotomy j i with hlt | rfl | hlt
    · exact absurd hhole (hbefore j hlt d hd path k s')
    · obtain rfl := Option.some.inj (hc.symm.trans hd)
      have hne : path ≠ h.path := fun heq => hne (heq ▸ rfl)
      exact List.cons_lt_cons_iff.2 (.inr ⟨rfl, hlater path k s' hhole hne⟩)
    · exact List.cons_lt_cons_iff.2 (.inl hlt)

/-- **The hole that is found is the first one.** -/
theorem isFirstHole_of_firstHole? (ht : Assembled t) :
    ∀ {h : Hole}, t.firstHole? = some h → t.IsFirstHole h := by
  induction ht with
  | hole b c =>
    intro h hh
    obtain rfl := Option.some.inj hh
    refine ⟨⟨_, rfl⟩, ?_⟩
    intro path k s hat hne
    cases path with
    | nil => exact absurd rfl hne
    | cons i path =>
      obtain ⟨d, hd, -⟩ := exists_child_of_at? hat
      exact absurd hd (by simp [mkHole, children])
  | leaf b a => exact fun hh => absurd hh (by simp [mkLeaf, firstHole?])
  | not b _ ih =>
    intro h hh
    obtain ⟨h', hh', rfl⟩ := child_of_firstHole?_not hh
    exact (ih hh').under ⟨_, rfl⟩ rfl fun j hj => absurd hj (Nat.not_lt_zero j)
  | binary b op hl _ ihl ihr =>
    intro h hh
    rcases child_of_firstHole?_binary hh with ⟨h', hh', rfl⟩ | ⟨hnone, h', hh', rfl⟩
    · exact (ihl hh').under ⟨_, rfl⟩ rfl fun j hj => absurd hj (Nat.not_lt_zero j)
    · refine (ihr hh').under ⟨_, rfl⟩ rfl fun j hj d hd => ?_
      obtain rfl := Nat.lt_one_iff.1 hj
      exact Option.some.inj hd ▸ holeFree_of_firstHole?_eq_none hl hnone
  | ite hc hp _ ihc ihp ihn =>
    intro h hh
    rcases child_of_firstHole?_ite hh with
      ⟨h', hh', rfl⟩ | ⟨hcnone, h', hh', rfl⟩ | ⟨hcnone, hpnone, h', hh', rfl⟩
    · exact (ihc hh').under ⟨_, rfl⟩ rfl fun j hj => absurd hj (Nat.not_lt_zero j)
    · refine (ihp hh').under ⟨_, rfl⟩ rfl fun j hj d hd => ?_
      obtain rfl := Nat.lt_one_iff.1 hj
      exact Option.some.inj hd ▸ holeFree_of_firstHole?_eq_none hc hcnone
    · refine (ihn hh').under ⟨_, rfl⟩ rfl fun j hj d hd => ?_
      rcases Nat.le_one_iff_eq_zero_or_eq_one.1 (Nat.le_of_lt_succ hj) with rfl | rfl
      · exact Option.some.inj hd ▸ holeFree_of_firstHole?_eq_none hc hcnone
      · exact Option.some.inj hd ▸ holeFree_of_firstHole?_eq_none hp hpnone

end Tree

end Synthesis
