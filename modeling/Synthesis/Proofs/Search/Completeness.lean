import Synthesis.Proofs.Grammar.Completion
import Synthesis.Proofs.Search.Optimality

/-!
# No solution is lost

A search throws trees away: hopeless ones before they are in line, wrong programs after they were
tried, and whatever it had in hand when it was told to stop. It may do all of this, be stepped on
behind an answer, run into its caps and be taken up again, and it still owes an account of every
solution:

> **a program that meets the examples has been accepted, or some tree in line has it as a
> completion** (`no_solution_lost`).

So an empty line has a meaning. If nothing was accepted on the way to it, then there was nothing to
accept, and the grammar has no program for these examples at all.
-/

set_option autoImplicit false

namespace Synthesis

namespace Search

variable {g : Grammar} {es : List Example} {limits : Limits} {s : Search} {signals : Signals}
  {history : List Signals} {q : Program}

/-- What is pending is not only covered by the line but a completion of a tree in it. -/
theorem Pending.completes (h : s.Pending q) (hfor : s.IsFor g es .interpreter)
    (hq : q.Solves g es) : ∃ t ∈ s.enumerator.line, g.Completes t q.tree := by
  obtain ⟨t, ht, hcovers⟩ := h
  obtain ⟨b, hbuilt⟩ := hq.built
  have hgen := hfor.faithful.generates t ht
  rw [hfor.grammar] at hgen
  exact ⟨t, ht, Grammar.completes_of_covers hcovers hgen hq.generated hbuilt q.complete⟩

/-- When the line runs out, every solution has been accepted. -/
theorem accepted_of_exhausted (hstart : start g es limits .interpreter = .ok s)
    (hq : q.Solves g es) (hexhausted : .error .exhausted ∈ s.results history) :
    ∃ p, .ok (.accepted p) ∈ s.results history := by
  obtain ⟨before, x, later, rfl, hstep⟩ := exists_step_of_mem_results hexhausted
  have hfor := isFor_of_start hstart
  have hempty := line_eq_nil_of_exhausted (hfor.after before).faithful.numbered hstep
  rcases pending_after hfor hq (pending_of_start hstart q) before with
    ⟨t, ht, -⟩ | ⟨p, haccepted, -⟩
  · rw [hempty] at ht
    exact absurd ht (by simp)
  · rw [results_append]
    exact ⟨p, List.mem_append_left _ haccepted⟩

/-- **No solution is lost.** Whatever steps a search has taken, a program of the grammar that meets
every example has been accepted or is a completion of a tree in line. A search that runs out of
trees without having accepted anything shows that there is no such program. -/
theorem no_solution_lost (hstart : start g es limits .interpreter = .ok s)
    (history : List Signals) :
    (∀ q : Program, q.Solves g es →
      (∃ p : Program, .ok (.accepted p) ∈ s.results history ∧
        p.tree = q.tree.annotate (.ofExamples es)) ∨
      ∃ t ∈ (s.after history).enumerator.line, g.Completes t q.tree) ∧
    (.error .exhausted ∈ s.results history → (∀ p, .ok (.accepted p) ∉ s.results history) →
      ∀ q : Program, ¬ q.Solves g es) ∧
    (∀ schedule fuel, (s.run schedule fuel).result = some (.error .exhausted) →
      ∀ q : Program, ¬ q.Solves g es) := by
  have hfor := isFor_of_start hstart
  refine ⟨?_, ?_, ?_⟩
  · intro q hq
    rcases pending_after hfor hq (pending_of_start hstart q) history with
      hpending | ⟨p, haccepted, heq⟩
    · exact .inr (hpending.completes (hfor.after history) hq)
    · exact .inl ⟨p, haccepted, heq.symm⟩
  · intro hexhausted hnone q hq
    obtain ⟨p, haccepted⟩ := accepted_of_exhausted hstart hq hexhausted
    exact hnone p haccepted
  · intro schedule fuel hrun q hq
    obtain ⟨before, x, hnone, hlast⟩ := last_step_of_runFrom hrun
    have hresults : s.results (before ++ [x]) = s.results before ++ [.error .exhausted] := by
      rw [results_append]
      exact congrArg (_ ++ [·]) hlast
    have hexhausted : .error .exhausted ∈ s.results (before ++ [x]) := by simp [hresults]
    obtain ⟨p, haccepted⟩ := accepted_of_exhausted hstart hq hexhausted
    rw [hresults, List.mem_append] at haccepted
    rcases haccepted with haccepted | habsurd
    · exact hnone p haccepted
    · exact absurd habsurd (by simp)

/-- Stopped twice, once on request and once by its cap, a search still has the successor in line;
and three leaves that are too small are all that their grammar has to offer. -/
theorem no_solution_lost_successor :
    (∃ (s : Search) (q : Program) (t : Tree), q.text = "Add(x, 1)" ∧
      start .arithmetic [.ofValues 0 0 0 1, .ofValues 1 0 0 2]
        { Limits.none with maxSteps := some 3 } .interpreter = .ok s ∧
      q.Solves .arithmetic [.ofValues 0 0 0 1, .ofValues 1 0 0 2] ∧
      t ∈ (s.after [.quiet, ⟨true, 0⟩, .quiet, .quiet, .quiet]).enumerator.line ∧
      Grammar.arithmetic.Completes t q.tree) ∧
    ∀ q : Program, ¬ q.Solves
      ⟨[⟨.atom (.var .x), rfl⟩, ⟨.atom (.lit .one), rfl⟩, ⟨.atom (.lit .two), rfl⟩], []⟩
      [.ofValues 0 0 0 3] := by
  let es : List Example := [.ofValues 0 0 0 1, .ofValues 1 0 0 2]
  let b := Bounds.ofExamples es
  let q : Program := ⟨.mkBinary b .add (.mkLeaf b (.var .x)) (.mkLeaf b (.lit .one)), rfl⟩
  have hq : q.Solves .arithmetic es :=
    ⟨.binary _ (by decide) (.leaf _ (by decide)) (.leaf _ (by decide)), ⟨b, by decide +kernel⟩,
      Program.meets_iff.2 (by decide +kernel)⟩
  constructor
  · let s : Search :=
      ⟨.new .arithmetic b, es, .interpreter, { Limits.none with maxSteps := some 3 }, 0⟩
    let history : List Signals := [.quiet, ⟨true, 0⟩, .quiet, .quiet, .quiet]
    have hnone : .ok (.accepted q) ∉ s.results history := by decide +kernel
    have hannotate : q.tree.annotate b = q.tree := by decide +kernel
    rcases (no_solution_lost (s := s) rfl history).1 q hq with
      ⟨⟨t, hcomplete⟩, haccepted, heq⟩ | ⟨t, ht, hcompletes⟩
    · obtain rfl : t = q.tree := heq.trans hannotate
      exact absurd haccepted hnone
    · exact ⟨s, q, t, by decide +kernel, rfl, hq, ht, hcompletes⟩
  · let g : Grammar :=
      ⟨[⟨.atom (.var .x), rfl⟩, ⟨.atom (.lit .one), rfl⟩, ⟨.atom (.lit .two), rfl⟩], []⟩
    let s : Search :=
      ⟨.new g (.ofExamples [.ofValues 0 0 0 3]), [.ofValues 0 0 0 3], .interpreter, .none, 0⟩
    have hdry : (s.run .quiet 2).result = some (.error .exhausted) := by decide +kernel
    exact (no_solution_lost (s := s) rfl []).2.2 .quiet 2 hdry

end Search

end Synthesis
