import Synthesis.Proofs.Tree.Progress

/-!
# Trees that have nothing in common

Two trees are apart if no tree is within both. It suffices that they disagree about the operator at
one place that is filled in both, but which place that is never matters: being apart is inherited by
whatever the two trees grow into, and that is all that is asked of it.

> **the growths of a tree are apart from each other** (`pairwise_apart_growths`)

if the grammar lists no operator twice. Only one hole is filled, and by a different operator each
time; whatever becomes of the other holes does not bring the growths together again.
-/

set_option autoImplicit false

namespace Synthesis

namespace Tree

variable {g : Grammar} {b : Bounds} {t t' u u' s s' : Tree} {path : Path} {r r' : Regrowth}

/-- No tree is within both. -/
def Apart (t u : Tree) : Prop := ∀ q, t.Covers q → ¬ u.Covers q

theorem Apart.symm (h : t.Apart u) : u.Apart t :=
  fun q hu ht => h q ht hu

theorem Apart.grow (h : t.Apart u) (ht : t.Covers t') (hu : u.Covers u') : t'.Apart u' :=
  fun q hq hq' => h q (ht.trans hq) (hu.trans hq')

theorem apart_sprout {op op' : Operator} (hne : op ≠ op') (b : Bounds) :
    (sprout b op).Apart (sprout b op') := by
  intro q hq hq'
  cases op <;> cases hq <;> cases op' <;> cases hq' <;> exact hne rfl

/-- Trees that differ in one subtree are apart if what they have there is. -/
theorem apart_of_substitute? (hs : s.Apart s') (h : t.substitute? b path s = some r)
    (h' : t.substitute? b path s' = some r') : r.tree.Apart r'.tree := by
  fun_induction substitute? b t path s generalizing r r' with
  | case1 t s =>
    obtain rfl := Option.some.inj h
    rw [substitute?_nil] at h'
    obtain rfl := Option.some.inj h'
    exact hs
  | case2 c sum path s ih | case3 op l r sum path s ih | case4 op l r sum path s ih
  | case5 c p n sum path s ih | case6 c p n sum path s ih | case7 c p n sum path s ih =>
    obtain ⟨x, hx, rfl⟩ := Option.map_eq_some_iff.1 h
    obtain ⟨x', hx', rfl⟩ := Option.map_eq_some_iff.1 h'
    have hchild := ih hs hx hx'
    intro q hq hq'
    cases hq
    cases hq'
    exact hchild _ ‹_› ‹_›
  | case8 => exact absurd h (by simp)

theorem pairwise_apart_growths (hnodup : ∀ c, (g.operators c).Nodup) (b : Bounds) (t : Tree) :
    (t.growths g b).Pairwise Apart := by
  unfold growths
  cases t.firstHole? with
  | none => exact List.Pairwise.nil
  | some h =>
    refine List.pairwise_filterMap.2 ((hnodup h.category).imp ?_)
    intro op op' hne u hu u' hu'
    obtain ⟨r, hr, rfl⟩ := Option.map_eq_some_iff.1 hu
    obtain ⟨r', hr', rfl⟩ := Option.map_eq_some_iff.1 hu'
    exact apart_of_substitute? (apart_sprout hne b) hr hr'

end Tree

end Synthesis
