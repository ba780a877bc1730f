import Mathlib.Logic.Hydra
import Synthesis.Proofs.Evaluation.Totality
import Synthesis.Proofs.Search.Interruption
import Synthesis.Proofs.Search.Optimality
import Synthesis.Proofs.Tree.Affordable

/-!
# The search gets to every program

The line grows without end, and leaves cost nothing, so that many trees stand at the same cost. Yet
a search gets past them. Fix a cost and look only at the trees in line that do not exceed it. A step
cuts the cheapest of them off, and what grows back, if anything, are larger trees; and a tree that
does not exceed the cost has a limited number of nodes. That is the game in which a hydra loses a
head and grows any number of lesser ones, and

> **the hydra dies** (`cutExpand_step`).

So as long as some tree in line has a program within it that is affordable, the head of the line is
affordable too, the game goes on, and when it ends the program has been accepted.
-/

set_option autoImplicit false

namespace Synthesis

open Relation

/-! ## The affordable part of the line -/

namespace Tree

variable {b : Bounds} {budget : Cost} {line line' : List Tree} {t u : Tree}

/-- The trees that cost no more than a budget. -/
def affordable (budget : Cost) (line : List Tree) : Multiset Tree :=
  Multiset.filter (fun t => t.cost ≤ budget) line

/-- The first tree is the larger one, where a limited number of nodes is available. -/
def Larger (u t : Tree) : Prop :=
  3 * Cost.wholeLimit + 1 - u.filled < 3 * Cost.wholeLimit + 1 - t.filled

theorem wellFounded_larger : WellFounded Larger :=
  (measure fun t : Tree => 3 * Cost.wholeLimit + 1 - t.filled).wf

/-- A head of the line is replaced by growths of it. -/
theorem cutExpand_affordable (us : List Tree) (hbudget : budget < .ofWhole Cost.wholeLimit)
    (ht : t.cost ≤ budget) (hbuilt : ∀ u ∈ us, u.Built b)
    (hgrown : ∀ u ∈ us, t.filled < u.filled) (hperm : line'.Perm (us ++ line)) :
    CutExpand Larger (affordable budget line') (affordable budget (t :: line)) := by
  refine ⟨affordable budget us, t, ?_, ?_⟩
  · intro u hu
    obtain ⟨hmem, hcost⟩ := Multiset.mem_filter.1 hu
    have hlimit := filled_le_of_cost_lt (hbuilt u hmem) (Nat.lt_of_le_of_lt hcost hbudget)
    have hlt := hgrown u hmem
    unfold Larger
    omega
  · have hline' : affordable budget line' = affordable budget us + affordable budget line := by
      rw [affordable, Multiset.coe_eq_coe.2 hperm, ← Multiset.coe_add, Multiset.filter_add]
      rfl
    have hcons : affordable budget (t :: line) = {t} + affordable budget line := by
      rw [affordable, affordable, Multiset.singleton_add, ← Multiset.cons_coe]
      exact Multiset.filter_cons_of_pos _ ht
    rw [hline', hcons]
    ac_rfl

end Tree

namespace Search

variable {g : Grammar} {es : List Example} {limits : Limits} {s : Search} {x y : Signals}
  {p q : Program} {budget : Cost} {calm : List Signals} {ev : Evaluator}

/-! ## Without caps -/

theorem alike_of_calm (hx : x.cancelled = false) (hy : y.cancelled = false) : x.Alike .none y :=
  ⟨hx.trans hy.symm, fun _ htimeout => absurd htimeout (by simp [Limits.none])⟩

/-- Without caps it does not matter how much time has passed. -/
theorem results_of_calm (hfor : s.IsFor g es ev) (hlimits : s.limits = .none)
    (hcalm : ∀ y ∈ calm, y.cancelled = false) :
    s.results calm = s.results (List.replicate calm.length .quiet) := by
  refine (after_of_alike hfor ?_).2
  rw [hlimits, List.forall₂_iff_get]
  refine ⟨List.length_replicate.symm, fun i hi _ => ?_⟩
  exact alike_of_calm (hcalm _ (List.get_mem calm ⟨i, hi⟩)) (by simp [Signals.quiet])

/-! ## The game -/

/-- **The hydra dies.** As long as a tree in line is affordable, a step goes ahead, cuts off an
affordable head and lets only larger ones grow back. -/
theorem cutExpand_step (hfor : s.IsFor g es .interpreter) (hlimits : s.limits = .none)
    (hbinds : ∀ e ∈ es, BindsAll e.input) (hbudget : budget < .ofWhole Cost.wholeLimit)
    {u : Tree} (hu : u ∈ s.enumerator.line) (hcost : u.cost ≤ budget) :
    (∃ examined, (s.step .quiet).1 = .ok examined) ∧
      CutExpand Tree.Larger (Tree.affordable budget (s.step .quiet).2.enumerator.line)
        (Tree.affordable budget s.enumerator.line) := by
  have hnumbered := hfor.faithful.numbered
  have houtcome := step_outcome hnumbered .quiet
  have hhead {t : Tree} {e : Enumerator} (hpop : s.enumerator.pop? = some (t, e)) :
      t.cost ≤ budget := Cost.le_trans (Enumerator.cost_le_of_pop? hnumbered hpop hu) hcost
  -- A program that was tried does not grow back.
  have htried {p : Program} {e : Enumerator} (hpop : s.enumerator.pop? = some (p.tree, e)) :
      CutExpand Tree.Larger (Tree.affordable budget e.line)
        (Tree.affordable budget s.enumerator.line) := by
    rw [Enumerator.line_of_pop? hpop]
    exact Tree.cutExpand_affordable (b := .zero) [] hbudget (hhead hpop) (by simp) (by simp)
      (.refl _)
  generalize (s.step .quiet).1 = result, (s.step .quiet).2 = s' at houtcome
  cases houtcome with
  | exhausted hpop =>
    rw [Enumerator.pop?_eq_none_iff.1 hpop] at hu
    exact absurd hu (by simp)
  | @hindered t e err hpop hobstacle =>
    have hnone : { s with enumerator := e }.obstacle? .quiet = none := obstacle?_eq_none hlimits rfl
    exact absurd (hnone.symm.trans hobstacle) (by simp)
  | @expanded t e hpop hobstacle hcomplete =>
    refine ⟨⟨_, rfl⟩, ?_⟩
    have hbuilt := hfor.faithful.built t (Enumerator.mem_line_of_pop? hpop)
    rw [← (Enumerator.setting_of_pop? hpop).2] at hbuilt
    rw [Enumerator.line_of_pop? hpop]
    refine Tree.cutExpand_affordable (b := e.bounds) (e.kept t) hbudget (hhead hpop) ?_ ?_ ?_
    · intro u hu
      exact Tree.built_of_mem_growths hbuilt (List.mem_filter.1 hu).1
    · intro u hu
      rw [Tree.filled_of_mem_growths (List.mem_filter.1 hu).1]
      exact Nat.lt_succ_self _
    · rw [Enumerator.line_expand (hnumbered.pop hpop)]
      exact Tree.foldl_enqueue_perm _ _
  | failed hpop hobstacle hverdict =>
    have hmem := Enumerator.mem_line_of_pop? hpop
    have hgen := hfor.faithful.generates _ hmem
    obtain ⟨verdict, haccept⟩ :=
      Example.exists_allAccept hbinds hgen (hfor.faithful.built _ hmem)
    rw [hfor.evaluator, hfor.examples, haccept] at hverdict
    exact absurd hverdict (by simp)
  | rejected hpop => exact ⟨⟨_, rfl⟩, htried hpop⟩
  | accepted hpop => exact ⟨⟨_, rfl⟩, htried hpop⟩

/-- What can be afforded is accepted in the end, and nothing fails before. -/
theorem exists_accepted (hbinds : ∀ e ∈ es, BindsAll e.input) (hq : q.Solves g es)
    (hcost : q.tree.cost < .ofWhole Cost.wholeLimit) (hfor : s.IsFor g es .interpreter)
    (hlimits : s.limits = .none) (hpending : s.Pending q) :
    ∃ n, (∀ r ∈ s.results (List.replicate n .quiet), ∃ examined, r = .ok examined) ∧
      ∃ p, .ok (.accepted p) ∈ s.results (List.replicate n .quiet) ∧
        p.tree = q.tree.annotate (.ofExamples es) := by
  generalize hheads : Tree.affordable q.tree.cost s.enumerator.line = heads
  -- Steps are taken until the program is accepted; the affordable heads say for how long.
  induction heads using Tree.wellFounded_larger.cutExpand.induction generalizing s with
  | _ heads ih =>
    obtain ⟨t, ht, hcovers⟩ := hpending
    obtain ⟨b, hbuilt⟩ := hq.built
    have hle := hcovers.cost_le (hfor.faithful.built t ht) hbuilt
    obtain ⟨⟨examined, hok⟩, hcut⟩ := cutExpand_step hfor hlimits hbinds hcost ht hle
    rcases pending_step hfor hq ⟨t, ht, hcovers⟩ .quiet with hpending | ⟨p, haccepted, heq⟩
    · have hlimits' := (limits_step hfor.faithful.numbered .quiet).trans hlimits
      obtain ⟨n, hall, p, haccepted, heq⟩ :=
        ih _ (hheads ▸ hcut) (hfor.step .quiet) hlimits' hpending rfl
      refine ⟨n + 1, ?_, p, ?_, heq⟩
      · intro r hr
        rw [List.replicate_succ, results] at hr
        rcases List.mem_cons.1 hr with rfl | hr
        · exact ⟨examined, hok⟩
        · exact hall r hr
      · rw [List.replicate_succ, results]
        exact List.mem_cons_of_mem _ haccepted
    · refine ⟨1, ?_, p, ?_, heq.symm⟩
      · intro r hr
        rw [List.replicate_succ, results] at hr
        obtain rfl : r = _ := List.mem_singleton.1 hr
        exact ⟨_, haccepted⟩
      · exact List.mem_cons.2 (.inl haccepted.symm)

/-- A run that meets no error before some program is accepted ends well. -/
theorem exists_run_ok {schedule : Schedule} {fuel : Nat} {made : List Event}
    (hall : ∀ r ∈ s.results (schedule.stretch s.steps fuel), ∃ examined, r = .ok examined)
    (haccepted : .ok (.accepted p) ∈ s.results (schedule.stretch s.steps fuel)) :
    ∃ p', (runFrom schedule fuel made s).result = some (.ok p') := by
  rw [result_runFrom]
  generalize s.results (schedule.stretch s.steps fuel) = rs at hall haccepted
  induction rs with
  | nil => exact absurd haccepted (by simp)
  | cons r rs ih =>
    obtain ⟨examined, rfl⟩ := hall r List.mem_cons_self
    have hrest : ∀ r ∈ rs, ∃ examined, r = .ok examined :=
      fun r hr => hall r (List.mem_cons_of_mem _ hr)
    cases examined with
    | accepted p' => exact ⟨p', rfl⟩
    | expanded t expansion => exact ih hrest ((List.mem_cons.1 haccepted).resolve_left (by simp))
    | rejected p' => exact ih hrest ((List.mem_cons.1 haccepted).resolve_left (by simp))

/-- **Every affordable answer is reached.** Without caps, and never asked to stop, a search on
examples that bind all variables accepts each program of the grammar that meets them and costs less
than the limit, after some number of steps of which none fails. So a run comes to an answer if there
is one that is affordable. -/
theorem affordable_answer_reached (hstart : start g es .none .interpreter = .ok s)
    (hbinds : ∀ e ∈ es, BindsAll e.input) :
    (∀ q : Program, q.Solves g es → q.tree.cost < .ofWhole Cost.wholeLimit →
      ∃ n, ∀ calm : List Signals, calm.length = n → (∀ y ∈ calm, y.cancelled = false) →
        (∀ r ∈ s.results calm, ∃ examined, r = .ok examined) ∧
        ∃ p, .ok (.accepted p) ∈ s.results calm ∧ p.tree = q.tree.annotate (.ofExamples es)) ∧
    ((∃ q : Program, q.Solves g es ∧ q.tree.cost < .ofWhole Cost.wholeLimit) →
      ∀ schedule : Schedule, (∀ n, (schedule n).cancelled = false) →
        ∃ fuel p, (s.run schedule fuel).result = some (.ok p)) := by
  have hfor := isFor_of_start hstart
  have hlimits := limits_of_start hstart
  have hreached (q : Program) (hq : q.Solves g es)
      (hcost : q.tree.cost < .ofWhole Cost.wholeLimit) :
      ∃ n, ∀ calm : List Signals, calm.length = n → (∀ y ∈ calm, y.cancelled = false) →
        (∀ r ∈ s.results calm, ∃ examined, r = .ok examined) ∧
        ∃ p, .ok (.accepted p) ∈ s.results calm ∧ p.tree = q.tree.annotate (.ofExamples es) := by
    obtain ⟨n, hquiet⟩ := exists_accepted hbinds hq hcost hfor hlimits (pending_of_start hstart q)
    refine ⟨n, ?_⟩
    intro calm hlength hcalm
    rw [results_of_calm hfor hlimits hcalm, hlength]
    exact hquiet
  refine ⟨hreached, ?_⟩
  rintro ⟨q, hq, hcost⟩ schedule hcalm
  obtain ⟨n, hn⟩ := hreached q hq hcost
  obtain ⟨hall, p, haccepted, -⟩ := hn (schedule.stretch s.steps n) (by simp [Schedule.stretch])
    (List.forall_mem_map.2 fun k _ => hcalm k)
  exact ⟨n, exists_run_ok hall haccepted⟩

/-- The successor is accepted at some time, and a run comes to an answer. -/
theorem affordable_answer_reached_successor : ∃ (s : Search) (q : Program), q.text = "Add(x, 1)" ∧
    start .arithmetic [.ofValues 0 0 0 1, .ofValues 1 0 0 2] .none .interpreter = .ok s ∧
    q.Solves .arithmetic [.ofValues 0 0 0 1, .ofValues 1 0 0 2] ∧
    q.tree.cost < .ofWhole Cost.wholeLimit ∧
    (∃ n, .ok (.accepted q) ∈ s.results (List.replicate n .quiet)) ∧
    ∃ fuel p, (s.run .quiet fuel).result = some (.ok p) := by
  let es : List Example := [.ofValues 0 0 0 1, .ofValues 1 0 0 2]
  let b := Bounds.ofExamples es
  let s : Search := ⟨.new .arithmetic b, es, .interpreter, .none, 0⟩
  let q : Program := ⟨.mkBinary b .add (.mkLeaf b (.var .x)) (.mkLeaf b (.lit .one)), rfl⟩
  have hbinds : ∀ e ∈ es, BindsAll e.input := by
    intro e he v
    rcases List.mem_cons.1 he with rfl | he
    · cases v <;> exact ⟨_, rfl⟩
    · obtain rfl := List.mem_singleton.1 he
      cases v <;> exact ⟨_, rfl⟩
  have hq : q.Solves .arithmetic es :=
    ⟨.binary _ (by decide) (.leaf _ (by decide)) (.leaf _ (by decide)), ⟨b, by decide +kernel⟩,
      Program.meets_iff.2 (by decide +kernel)⟩
  have hcost : q.tree.cost < .ofWhole Cost.wholeLimit := by decide +kernel
  obtain ⟨hreached, hrun⟩ := affordable_answer_reached (s := s) rfl hbinds
  obtain ⟨n, hn⟩ := hreached q hq hcost
  obtain ⟨-, ⟨t, hcomplete⟩, haccepted, heq⟩ :=
    hn (List.replicate n .quiet) (by simp) (by simp [Signals.quiet])
  have hannotate : q.tree.annotate b = q.tree := by decide +kernel
  obtain rfl : t = q.tree := heq.trans hannotate
  exact ⟨s, q, by decide +kernel, rfl, hq, hcost, ⟨n, haccepted⟩,
    hrun ⟨q, hq, hcost⟩ .quiet fun _ => rfl⟩

end Search

end Synthesis
