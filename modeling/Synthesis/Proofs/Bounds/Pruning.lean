import Mathlib.Logic.Relation
import Synthesis.Proofs.Bounds.Soundness
import Synthesis.Proofs.Tree.Growth

/-!
# What is pruned is hopeless

A partial tree whose bound is below the target may be dropped, because no way of filling its holes
leads to a program that meets the examples. Soundness of bounds alone does not give that. A hole is
given the target as its bound although it may become anything, so the bound of a partial tree is
*not* an upper bound on the values of its completions, and filling a hole can raise the bound of
the node above it.

What saves the argument is that a low bound cannot rest on a hole:

> **below the target, growing never raises the bound** (`Covers.bound_le`).

A hole is not below the target itself, and neither is a truth value. A low sum has low summands. A
low conditional has low branches, and its condition does not count. A low product either has low
factors or has a zero among them, and the zero is low, and stays.
-/

set_option autoImplicit false

namespace Synthesis

namespace Bounds

variable {es : List Example}

theorem target_foldl_widen (es : List Example) (b : Bounds) :
    (es.foldl widen b).target = b.target ∨ ∃ e ∈ es, e.output = (es.foldl widen b).target := by
  induction es generalizing b with
  | nil => exact .inl rfl
  | cons e es ih =>
    rcases ih (b.widen e) with h | ⟨e', he', h⟩
    · have hwiden : (b.widen e).target = max b.target e.output := rfl
      rcases Value.max_eq_or b.target e.output with hmax | hmax
      · exact .inl (by rw [List.foldl_cons, h, hwiden, hmax])
      · exact .inr ⟨e, by simp, by rw [List.foldl_cons, h, hwiden, hmax]⟩
    · exact .inr ⟨e', by simp [he'], h⟩

/-- A target above zero is asked for by some example. -/
theorem exists_output_eq_target (h : 0 < (ofExamples es).target) :
    ∃ e ∈ es, e.output = (ofExamples es).target := by
  rcases target_foldl_widen es zero with hzero | he
  · have htarget : (ofExamples es).target = 0 := hzero
    rw [htarget] at h
    exact absurd h (Int64.lt_irrefl)
  · exact he

end Bounds

namespace Tree

variable {b : Bounds} {t u : Tree}

/-- **Below the target, growing never raises the bound.** -/
theorem Covers.bound_le (hb : b.Nonneg) (h : t.Covers u) :
    Built b t → Built b u → t.bound < b.target → u.bound ≤ t.bound := by
  induction h with
  | hole c s u =>
    intro ht _ hlow
    rw [built_hole_iff.1 ht] at hlow
    exact absurd hlow Int64.lt_irrefl
  | leaf a s s' =>
    intro ht hu _
    rw [built_leaf_iff.1 ht, built_leaf_iff.1 hu]
    exact Int64.le_refl _
  | not s s' _ _ =>
    intro ht _ hlow
    obtain ⟨-, ht⟩ := built_not_iff.1 ht
    rw [ht] at hlow
    exact absurd hlow Int64.lt_irrefl
  | @binary op l r l' r' s s' _ _ ihl ihr =>
    intro ht hu hlow
    obtain ⟨hl, hr, ht⟩ := built_binary_iff.1 ht
    obtain ⟨hl', hr', hu⟩ := built_binary_iff.1 hu
    rw [ht] at hlow ⊢
    rw [hu]
    have hlpos := bound_nonneg hb hl
    have hrpos := bound_nonneg hb hr
    cases op with
    | add =>
      obtain ⟨hllow, hrlow⟩ := Value.lt_of_satAdd_lt hlpos hrpos hlow
      exact Value.satAdd_le_satAdd (ihl hl hl' hllow) (ihr hr hr' hrlow)
    | multiply =>
      -- Here a factor need not be low, so the induction hypotheses are handed on as they are.
      exact Value.satMul_le_of_lt hlpos hrpos (bound_nonneg hb hl') (bound_nonneg hb hr') hlow
        (ihl hl hl') (ihr hr hr')
    | lt | eq | and | or => exact absurd hlow Int64.lt_irrefl
  | @ite c p n c' p' n' s s' _ _ _ _ ihp ihn =>
    intro ht hu hlow
    obtain ⟨-, hp, hn, ht⟩ := built_ite_iff.1 ht
    obtain ⟨-, hp', hn', hu⟩ := built_ite_iff.1 hu
    rw [ht] at hlow ⊢
    rw [hu]
    have hmax : max p.bound n.bound < b.target := hlow
    have hple := ihp hp hp' (Int64.lt_of_le_of_lt (Value.le_max_left _ _) hmax)
    have hnle := ihn hn hn' (Int64.lt_of_le_of_lt (Value.le_max_right _ _) hmax)
    show max p'.bound n'.bound ≤ max p.bound n.bound
    exact Value.max_le_max hple hnle

/-- A program within a tree below the target misses the example that asks for the target. -/
theorem Covers.misses_of_lt_target {es : List Example} {p : Program} (h : t.Covers p.tree)
    (ht : Built (.ofExamples es) t) (hlow : t.bound < (Bounds.ofExamples es).target) :
    ∃ e ∈ es, Evaluator.interpreter p e.input ≠ .ok e.output := by
  have hb := Bounds.nonneg_ofExamples es
  obtain ⟨e, he, hout⟩ := Bounds.exists_output_eq_target
    (Int64.lt_of_le_of_lt (bound_nonneg hb ht) hlow)
  refine ⟨e, he, ?_⟩
  intro heval
  -- The program itself may have been built under any bounds; what it computes is the same.
  have hbuilt := built_annotate (.ofExamples es) p.tree
  have hcovers : t.Covers (p.tree.annotate (.ofExamples es)) :=
    ht.annotate_eq ▸ h.annotate (.ofExamples es) (.ofExamples es)
  have hsound : e.output.satAbs ≤ (p.tree.annotate (.ofExamples es)).bound := by
    refine satAbs_le_bound hbuilt he ?_
    rw [evalNumber_annotate]
    exact heval
  rw [hout, Value.satAbs_of_nonneg hb.target] at hsound
  have hle := Int64.le_trans hsound (hcovers.bound_le hb ht hbuilt hlow)
  exact Int64.lt_irrefl (Int64.lt_of_le_of_lt hle hlow)

/-! ## Filling holes one after another -/

/-- Some hole of the tree, not necessarily the first, is replaced by a tree built under the
bounds. -/
def FillsHole (b : Bounds) (t u : Tree) : Prop :=
  ∃ path c sum s g, t.at? path = some (.hole c sum) ∧ Built b s ∧
    t.substitute? b path s = some g ∧ g.tree = u

theorem FillsHole.covers (h : FillsHole b t u) : t.Covers u := by
  obtain ⟨path, c, sum, s, g, hat, -, hg, rfl⟩ := h
  exact covers_of_substitute? hat hg

theorem FillsHole.built (h : FillsHole b t u) (ht : Built b t) : Built b u := by
  obtain ⟨path, c, sum, s, g, -, hs, hg, rfl⟩ := h
  exact built_of_substitute? ht hs hg

theorem covers_and_built_of_fillsHoles (ht : Built b t)
    (h : Relation.ReflTransGen (FillsHole b) t u) : t.Covers u ∧ Built b u := by
  induction h with
  | refl => exact ⟨.refl t, ht⟩
  | tail _ hstep ih => exact ⟨ih.1.trans hstep.covers, hstep.built ih.2⟩

/-- **A tree below the target is hopeless**: whatever is put into its holes, in whatever order, its
bound does not rise, and no program that comes out of it meets all examples. -/
theorem lt_target_hopeless {es : List Example} (ht : Built (.ofExamples es) t)
    (hlow : t.bound < (Bounds.ofExamples es).target)
    (h : Relation.ReflTransGen (FillsHole (.ofExamples es)) t u) :
    u.bound ≤ t.bound ∧
      ∀ p : Program, p.tree = u → ∃ e ∈ es, Evaluator.interpreter p e.input ≠ .ok e.output := by
  obtain ⟨hcovers, hu⟩ := covers_and_built_of_fillsHoles ht h
  refine ⟨hcovers.bound_le (Bounds.nonneg_ofExamples es) ht hu hlow, ?_⟩
  intro p hp
  exact Covers.misses_of_lt_target (hp ▸ hcovers) ht hlow

/-- With one factor always zero, nothing that the other becomes can help. -/
theorem lt_target_hopeless_multiply : ∃ (e : Example) (t u : Tree),
    t.text = "Multiply(y, E)" ∧ u.text = "Multiply(y, Multiply(x, 3))" ∧
      t.bound < (Bounds.ofExamples [e]).target ∧ u.bound ≤ t.bound ∧
        ∀ p : Program, p.tree = u →
          ∃ e' ∈ [e], Evaluator.interpreter p e'.input ≠ .ok e'.output := by
  let e : Example := .ofValues 2 0 0 100
  let b := Bounds.ofExamples [e]
  let y : Tree := .mkLeaf b (.var .y)
  let m : Tree := .mkBinary b .multiply (.mkLeaf b (.var .x)) (.mkHole b .numeric)
  let t : Tree := .mkBinary b .multiply y (.mkHole b .numeric)
  let u : Tree :=
    .mkBinary b .multiply y (.mkBinary b .multiply (.mkLeaf b (.var .x)) (.mkLeaf b (.lit .three)))
  have ht : t.Built b := by decide +kernel
  have hlow : t.bound < b.target := by decide +kernel
  have hfirst : FillsHole b t (.mkBinary b .multiply y m) :=
    ⟨[1], .numeric, _, m, _, rfl, by decide +kernel, rfl, rfl⟩
  have hsecond : FillsHole b (.mkBinary b .multiply y m) u :=
    ⟨[1, 1], .numeric, _, .mkLeaf b (.lit .three), _, rfl, by decide +kernel, rfl, rfl⟩
  obtain ⟨hbound, hmiss⟩ := lt_target_hopeless ht hlow (.tail (.tail .refl hfirst) hsecond)
  exact ⟨e, t, u, by decide +kernel, by decide +kernel, hlow, hbound, hmiss⟩

end Tree

end Synthesis
