import Synthesis.Proofs.Bounds.Pruning
import Synthesis.Proofs.Search.Steps

/-!
# The answer is right and none is cheaper

A search tries the cheapest tree in line, stops at the first program that meets the examples, and
drops trees on the way. That no cheaper program is missed comes from one invariant,

> **a program that solves the problem is within a tree in line until it is accepted**
> (`pending_step`).

Three things go into it. A tree that is expanded has a growth for every program within it. Such a
growth is not dropped, since nothing below the target can become a program that meets the
examples. And a complete tree is the only program within it, so that when it is taken out of line
the program has been tried. The rest is the order of the line: what is accepted was at the head,
so it costs no more than the tree that any other solution is within, and growing never makes a
tree cheaper.
-/

set_option autoImplicit false

namespace Synthesis

/-- A program that a search may answer. The bounds that it was built under do not matter, since no
other part of it depends on them. -/
structure Program.Solves (p : Program) (g : Grammar) (es : List Example) : Prop where
  generated : g.Generates Grammar.start p.tree
  built : ∃ b, p.tree.Built b
  meets : p.Meets es

namespace Search

variable {g : Grammar} {es : List Example} {limits : Limits} {s : Search} {t : Tree}
  {signals : Signals} {p q : Program}

/-! ## Solutions stay within the line -/

/-- Some tree in line can still become the program. -/
def Pending (s : Search) (q : Program) : Prop := ∃ t ∈ s.enumerator.line, t.Covers q.tree

theorem pending_of_start {ev : Evaluator} (h : start g es limits ev = .ok s) (q : Program) :
    s.Pending q := by
  refine ⟨.mkHole (.ofExamples es) Grammar.start, ?_, .hole _ _ _⟩
  rw [line_of_start h]
  exact List.mem_cons_self

/-- An expansion keeps a growth for every solution within the tree. -/
theorem exists_kept_covers {e : Enumerator} (hbounds : e.bounds = .ofExamples es)
    (ht : t.Built e.bounds) (hgen : e.grammar.Generates Grammar.start t)
    (hcomplete : t.isComplete = false) (hq : q.Solves e.grammar es) (hcovers : t.Covers q.tree) :
    ∃ u ∈ e.kept t, u.Covers q.tree := by
  obtain ⟨b, hbuilt⟩ := hq.built
  obtain ⟨u, hu, hucovers⟩ :=
    Tree.exists_mem_growths_covers hcovers ht hcomplete hgen hq.generated hbuilt q.complete
  refine ⟨u, List.mem_filter.2 ⟨hu, decide_eq_true (Int64.not_lt.1 fun hlow => ?_)⟩, hucovers⟩
  have hubuilt := Tree.built_of_mem_growths ht hu
  rw [hbounds] at hubuilt hlow
  obtain ⟨x, hx, hmiss⟩ := hucovers.misses_of_lt_target hubuilt hlow
  exact hmiss (hq.meets x hx)

/-- Popping a partial tree and expanding it loses no solution. -/
theorem exists_mem_expand_covers {e e' : Enumerator} {u : Tree} (h : e.Faithful)
    (hbounds : e.bounds = .ofExamples es) (hpop : e.pop? = some (u, e'))
    (hcomplete : u.isComplete = false) (hq : q.Solves e.grammar es) (ht : t ∈ e.line)
    (hcovers : t.Covers q.tree) : ∃ v ∈ (e'.expand u).2.line, v.Covers q.tree := by
  have hnumbered := h.numbered.pop hpop
  obtain ⟨hgrammar, hbounds'⟩ := Enumerator.setting_of_pop? hpop
  have hbuilt := h.built t ht
  have hgen := h.generates t ht
  rw [Enumerator.line_of_pop? hpop] at ht
  rcases List.mem_cons.1 ht with rfl | hrest
  · rw [← hbounds'] at hbuilt hbounds
    rw [← hgrammar] at hgen hq
    obtain ⟨v, hv, hvcovers⟩ := exists_kept_covers hbounds hbuilt hgen hcomplete hq hcovers
    exact ⟨v, (Enumerator.mem_line_expand hnumbered).2 (.inl hv), hvcovers⟩
  · exact ⟨t, (Enumerator.mem_line_expand hnumbered).2 (.inr hrest), hcovers⟩

/-- A complete tree in line is accepted if a solution is within it. -/
theorem accepts_of_covers {b : Bounds} (hp : p.tree.Built b) (hcovers : p.tree.Covers q.tree)
    (hq : q.Meets es) : q.tree.annotate b = p.tree ∧
      Example.allAccept .interpreter p es = .ok true := by
  have heq := hcovers.annotate_eq_of_complete hp p.complete
  exact ⟨heq, Program.meets_iff.1 ((Program.meets_iff_of_annotate_eq heq).2 hq)⟩

/-- **A solution is within the line until it is accepted.** -/
theorem pending_step (h : s.IsFor g es .interpreter) (hq : q.Solves g es) (hpending : s.Pending q)
    (signals : Signals) : (s.step signals).2.Pending q ∨
      ∃ p, (s.step signals).1 = .ok (.accepted p) ∧ q.tree.annotate (.ofExamples es) = p.tree := by
  have houtcome := step_outcome h.faithful.numbered signals
  obtain ⟨t, ht, hcovers⟩ := hpending
  -- A complete tree that was popped is either not the one that the solution is within, which is
  -- then still in line, or it is accepted.
  have htried {p : Program} {e : Enumerator} {verdict : Except EvalError Bool}
      (hpop : s.enumerator.pop? = some (p.tree, e))
      (hverdict : Example.allAccept s.evaluator p s.examples = verdict) :
      t ∈ e.line ∨ verdict = .ok true ∧ q.tree.annotate (.ofExamples es) = p.tree := by
    have hbuilt := h.faithful.built t ht
    rw [Enumerator.line_of_pop? hpop] at ht
    rcases List.mem_cons.1 ht with rfl | hrest
    · rw [h.bounds] at hbuilt
      obtain ⟨heq, haccept⟩ := accepts_of_covers hbuilt hcovers hq.meets
      rw [h.evaluator, h.examples, haccept] at hverdict
      exact .inr ⟨hverdict.symm, heq⟩
    · exact .inl hrest
  generalize (s.step signals).1 = result, (s.step signals).2 = s' at houtcome
  cases houtcome with
  | exhausted => exact .inl ⟨t, ht, hcovers⟩
  | hindered => exact .inl ⟨t, ht, hcovers⟩
  | expanded hpop hobstacle hcomplete =>
    rw [← h.grammar] at hq
    exact .inl (exists_mem_expand_covers h.faithful h.bounds hpop hcomplete hq ht hcovers)
  | failed hpop hobstacle hverdict =>
    rcases htried hpop hverdict with hrest | ⟨habsurd, -⟩
    · exact .inl ⟨t, hrest, hcovers⟩
    · exact absurd habsurd (by simp)
  | rejected hpop hobstacle hverdict =>
    rcases htried hpop hverdict with hrest | ⟨habsurd, -⟩
    · exact .inl ⟨t, hrest, hcovers⟩
    · exact absurd habsurd (by simp)
  | @accepted p e hpop hobstacle hverdict =>
    rcases htried hpop hverdict with hrest | ⟨-, heq⟩
    · exact .inl ⟨t, hrest, hcovers⟩
    · exact .inr ⟨p, rfl, heq⟩

/-- The same for a whole history. -/
theorem pending_after (h : s.IsFor g es .interpreter) (hq : q.Solves g es) (hpending : s.Pending q)
    (history : List Signals) : (s.after history).Pending q ∨
      ∃ p, .ok (.accepted p) ∈ s.results history ∧
        q.tree.annotate (.ofExamples es) = p.tree := by
  induction history generalizing s with
  | nil => exact .inl hpending
  | cons x xs ih =>
    rcases pending_step h hq hpending x with hpending | ⟨p, haccepted, heq⟩
    · rcases ih (h.step x) hpending with hpending | ⟨p, haccepted, heq⟩
      · exact .inl hpending
      · exact .inr ⟨p, List.mem_cons_of_mem _ haccepted, heq⟩
    · exact .inr ⟨p, List.mem_cons.2 (.inl haccepted.symm), heq⟩

/-! ## What is accepted -/

theorem accepted_step (h : s.IsFor g es .interpreter)
    (haccepted : (s.step signals).1 = .ok (.accepted p)) :
    p.tree ∈ s.enumerator.line ∧ (∀ t ∈ s.enumerator.line, p.tree.cost ≤ t.cost) ∧ p.Meets es := by
  have houtcome := step_outcome h.faithful.numbered signals
  rw [haccepted] at houtcome
  generalize (s.step signals).2 = s' at houtcome
  cases houtcome with
  | accepted hpop hobstacle hverdict =>
    rw [h.evaluator, h.examples] at hverdict
    exact ⟨Enumerator.mem_line_of_pop? hpop,
      fun t ht => Enumerator.cost_le_of_pop? h.faithful.numbered hpop ht,
      Program.meets_iff.2 hverdict⟩

/-- The first program that is accepted is a solution, and no solution is cheaper. -/
theorem optimal_of_accepted (hstart : start g es limits .interpreter = .ok s)
    {history : List Signals} (hnone : ∀ q, .ok (.accepted q) ∉ s.results history)
    (haccepted : ((s.after history).step signals).1 = .ok (.accepted p)) :
    p.tree.Built (.ofExamples es) ∧ p.Solves g es ∧
      ∀ q : Program, q.Solves g es → p.tree.cost ≤ q.tree.cost := by
  have hfor := isFor_of_start hstart
  have hafter := hfor.after history
  obtain ⟨hmem, hcheapest, hmeets⟩ := accepted_step hafter haccepted
  have hbuilt := hafter.faithful.built p.tree hmem
  rw [hafter.bounds] at hbuilt
  have hgen := hafter.faithful.generates p.tree hmem
  rw [hafter.grammar] at hgen
  refine ⟨hbuilt, ⟨hgen, ⟨_, hbuilt⟩, hmeets⟩, ?_⟩
  intro q hq
  rcases pending_after hfor hq (pending_of_start hstart q) history with
    ⟨t, ht, hcovers⟩ | ⟨p', haccepted', -⟩
  · obtain ⟨b, hqbuilt⟩ := hq.built
    have hle : t.cost ≤ q.tree.cost := hcovers.cost_le (hafter.faithful.built t ht) hqbuilt
    exact Cost.le_trans (hcheapest t ht) hle
  · exact absurd haccepted' (hnone p')

end Search

variable {g : Grammar} {es : List Example} {limits : Limits} {schedule : Schedule} {fuel : Nat}
  {p : Program}

/-- **An answer is a program of the grammar that meets every example, and no such program is
cheaper.** -/
theorem synthesize_optimal (h : synthesize g es limits schedule fuel = some (.ok p)) :
    p.tree.Built (.ofExamples es) ∧ p.Solves g es ∧
      ∀ q : Program, q.Solves g es → p.tree.cost ≤ q.tree.cost := by
  rw [synthesize] at h
  split at h
  next => exact absurd h (by simp)
  next s hstart =>
    obtain ⟨before, x, hnone, haccepted⟩ := Search.last_step_of_runFrom h
    exact Search.optimal_of_accepted hstart hnone haccepted

/-- The successor is found in seventeen steps. -/
theorem synthesize_optimal_successor : ∃ p : Program, p.text = "Add(x, 1)" ∧
    synthesize .arithmetic [.ofValues 0 0 0 1, .ofValues 1 0 0 2] .none .quiet 17 = some (.ok p) ∧
      ∀ q : Program, q.Solves .arithmetic [.ofValues 0 0 0 1, .ofValues 1 0 0 2] →
        p.tree.cost ≤ q.tree.cost := by
  let b := Bounds.ofExamples [.ofValues 0 0 0 1, .ofValues 1 0 0 2]
  have h : synthesize .arithmetic [.ofValues 0 0 0 1, .ofValues 1 0 0 2] .none .quiet 17 =
      some (.ok ⟨.mkBinary b .add (.mkLeaf b (.var .x)) (.mkLeaf b (.lit .one)), rfl⟩) := by
    decide +kernel
  exact ⟨_, by decide +kernel, h, (synthesize_optimal h).2.2⟩

end Synthesis
