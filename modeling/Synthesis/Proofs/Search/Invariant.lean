import Synthesis.Proofs.Grammar.Derivation
import Synthesis.Proofs.Search.Steps

/-!
# What is true of every tree in line

A tree gets into line in one of two ways: it is the start hole, or it is a growth, not dropped, of a
tree that was there before. So a property of trees is proved of everything in line by looking at
these two (`forall_mem_line_after`), and the search itself is out of the picture from then on.

What a maintainer expects of a tree in line is proved so. It is derived from the start hole by
filling first holes; its operators have the operands that they take; what its nodes remember is what
one would find by working it out again; and it has not become hopeless.
-/

set_option autoImplicit false

namespace Synthesis

namespace Search

variable {g : Grammar} {es : List Example} {ev : Evaluator} {limits : Limits} {s : Search}
  {t : Tree} {P : Tree → Prop}

/-! ## Properties kept by growing -/

/-- The trees in line after a step were there before, or are growths of one that was there. -/
theorem mem_line_step (hfor : s.IsFor g es ev) (x : Signals)
    (ht : t ∈ (s.step x).2.enumerator.line) : t ∈ s.enumerator.line ∨
      ∃ u ∈ s.enumerator.line, t ∈ u.growths g (.ofExamples es) ∧
        (Bounds.ofExamples es).target ≤ t.bound := by
  have houtcome := step_outcome hfor.faithful.numbered x
  have hrest {u : Tree} {e : Enumerator} (hpop : s.enumerator.pop? = some (u, e))
      (ht : t ∈ e.line) : t ∈ s.enumerator.line := by
    rw [Enumerator.line_of_pop? hpop]
    exact List.mem_cons_of_mem _ ht
  generalize (s.step x).1 = result, (s.step x).2 = s' at houtcome ht
  cases houtcome with
  | exhausted | hindered => exact .inl ht
  | @expanded u e hpop =>
    rw [Enumerator.line_expand (hfor.faithful.numbered.pop hpop)] at ht
    rcases Tree.mem_foldl_enqueue.1 ht with hkept | ht
    · rw [hfor.kept_of_pop? hpop] at hkept
      obtain ⟨hgrowth, htarget⟩ := List.mem_filter.1 hkept
      exact .inr ⟨u, Enumerator.mem_line_of_pop? hpop, hgrowth, of_decide_eq_true htarget⟩
    · exact .inl (hrest hpop ht)
  | failed hpop => exact .inl (hrest hpop ht)
  | rejected hpop => exact .inl (hrest hpop ht)
  | accepted hpop => exact .inl (hrest hpop ht)

/-- **What growing keeps is true of everything that ever comes into line.** -/
theorem forall_mem_line_after (hfor : s.IsFor g es ev) (hline : ∀ t ∈ s.enumerator.line, P t)
    (hgrow : ∀ t u, t.Built (.ofExamples es) → P t → u ∈ t.growths g (.ofExamples es) →
      (Bounds.ofExamples es).target ≤ u.bound → P u) (history : List Signals) :
    ∀ t ∈ (s.after history).enumerator.line, P t := by
  induction history generalizing s with
  | nil => exact hline
  | cons x xs ih =>
    refine ih (hfor.step x) fun t ht => ?_
    rcases mem_line_step hfor x ht with ht | ⟨u, hu, hgrowth, htarget⟩
    · exact hline t ht
    · exact hgrow u t (hfor.built hu) (hline u hu) hgrowth htarget

/-! ## The invariant of the worklist -/

/-- **Nothing but sound trees is in line.** After any history, each tree in line is derived from the
start hole by filling first holes, every operator in it has operands of the categories that it
takes, every node's summary is the one that is derived anew from the symbols below, and the tree
can still reach the target. -/
theorem line_is_sound (hstart : start g es limits ev = .ok s) (history : List Signals)
    (ht : t ∈ (s.after history).enumerator.line) :
    g.Derives (.ofExamples es) t ∧
    (∀ u ∈ t.subtrees, ∀ op, u.symbol = .op op →
      u.children.map (·.symbol.category) = op.signature) ∧
    (∀ u ∈ t.subtrees, u.annotate (.ofExamples es) = u) ∧
    (Bounds.ofExamples es).target ≤ t.bound := by
  have hfor := isFor_of_start hstart
  have hafter := hfor.after history
  have hline := line_of_start hstart
  have hderives : g.Derives (.ofExamples es) t := by
    refine forall_mem_line_after hfor ?_ ?_ history t ht
    · intro u hu
      rw [hline, List.mem_singleton] at hu
      exact hu ▸ .refl
    · intro u v hbuilt hderives hv _
      exact hderives.tail (Grammar.rewrites_of_mem_growths hbuilt hv)
  have htarget : (Bounds.ofExamples es).target ≤ t.bound := by
    refine forall_mem_line_after hfor ?_ (fun _ _ _ _ _ htarget => htarget) history t ht
    intro u hu
    rw [hline, List.mem_singleton] at hu
    exact hu ▸ Int64.le_refl _
  refine ⟨hderives, ?_, ?_, htarget⟩
  · intro u hu op hop
    obtain ⟨k, hk⟩ := (hafter.faithful.generates t ht).of_mem_subtrees hu
    exact (hafter.grammar ▸ hk).categories_children hop
  · intro u hu
    exact ((hafter.built ht).of_mem_subtrees hu).annotate_eq

/-- A sum whose second operand is still open is in line, and was derived. -/
theorem line_is_sound_sum : ∃ (s : Search) (t : Tree), t.text = "Add(x, E)" ∧
    start .arithmetic [.ofValues 0 0 0 1, .ofValues 1 0 0 2] .none .interpreter = .ok s ∧
    t ∈ (s.after [.quiet, .quiet, ⟨true, 0⟩, .quiet, .quiet]).enumerator.line ∧
    Grammar.arithmetic.Derives (.ofExamples [.ofValues 0 0 0 1, .ofValues 1 0 0 2]) t ∧
    t.children.map (·.symbol.category) = [.numeric, .numeric] ∧
    t.annotate (.ofExamples [.ofValues 0 0 0 1, .ofValues 1 0 0 2]) = t ∧
    2 ≤ t.bound := by
  let es : List Example := [.ofValues 0 0 0 1, .ofValues 1 0 0 2]
  let b := Bounds.ofExamples es
  let s : Search := ⟨.new .arithmetic b, es, .interpreter, .none, 0⟩
  let t : Tree := .mkBinary b .add (.mkLeaf b (.var .x)) (.mkHole b .numeric)
  have ht : t ∈ (s.after [.quiet, .quiet, ⟨true, 0⟩, .quiet, .quiet]).enumerator.line := by
    decide +kernel
  have hstart : start .arithmetic es .none .interpreter = .ok s := rfl
  obtain ⟨hderives, hoperands, hsummaries, htarget⟩ := line_is_sound hstart _ ht
  have hroot : t ∈ t.subtrees := List.mem_cons_self
  exact ⟨s, t, by decide +kernel, hstart, ht, hderives, hoperands t hroot _ rfl, hsummaries t hroot,
    htarget⟩

end Search

end Synthesis
