import Synthesis.Proofs.Enumerator.Balance
import Synthesis.Proofs.Search.Steps

/-!
# A search accounts for its trees

A search counts its steps, and its enumerator counts pops and expansions. Each is counted at a
moment of its own: the pop before the caps are looked at, the step after that, and an expansion only
where there is something to fill. A step may fail in between. One that may not go ahead takes its
pop back; one that tries a program without a value does not. In the end,

> **each tree that was taken was either expanded or tried** (`Accounts.step`).

How many programs were tried can be seen from outside. A step says so by what it returns, and a run
by its reports, and by how it ended if the last program has no value (`Run.tried`).
-/

set_option autoImplicit false

namespace Synthesis

/-! ## Programs tried -/

/-- How many programs a step with the given result has tried on the examples. -/
def tries : Except SearchError Examined → Nat
  | .ok (.rejected _) | .ok (.accepted _) | .error (.evaluation _) => 1
  | .ok (.expanded _ _) | .error .noExamples | .error (.budget _) | .error .cancelled
  | .error .exhausted => 0

/-- The report says what became of a program. -/
def Event.isVerdict : Event → Bool
  | .rejected _ | .accepted _ => true
  | .started _ _ | .found _ _ | .finished _ => false

/-- How many programs a run has tried on the examples. -/
def Run.tried (r : Run) : Nat :=
  r.events.countP Event.isVerdict +
    match r.result with
    | some (.error (.evaluation _)) => 1
    | none | some (.ok _) | some (.error _) => 0

/-- A program that has a value is reported. -/
theorem tries_ok (examined : Examined) :
    tries (.ok examined) = examined.events.countP Event.isVerdict := by
  cases examined <;> rfl

theorem tries_of_isInterruption {err : SearchError} (h : err.isInterruption = true) :
    tries (.error err) = 0 := by
  cases err with
  | evaluation err => exact absurd h Bool.false_ne_true
  | _ => rfl

namespace Search

variable {g : Grammar} {es : List Example} {ev : Evaluator} {limits : Limits} {s s₀ s' : Search}
  {schedule : Schedule} {p : Program} {n k fuel : Nat} {made : List Event}

/-- The second search is what the first has become after steps and runs that have tried so many
programs. -/
inductive Tries (s : Search) : Nat → Search → Prop where
  | refl : Tries s 0 s
  | step {n : Nat} {s' : Search} (x : Signals) :
      Tries s n s' → Tries s (n + tries (s'.step x).1) (s'.step x).2
  | run {n : Nat} {s' : Search} (schedule : Schedule) (fuel : Nat) :
      Tries s n s' → Tries s (n + (s'.run schedule fuel).tried) (s'.run schedule fuel).search

/-- Whatever is reached is reached after some number of tries. -/
theorem reaches_iff_tries : s.Reaches s' ↔ ∃ n, s.Tries n s' := by
  constructor
  · intro h
    induction h with
    | refl => exact ⟨0, .refl⟩
    | step x _ ih => exact ih.elim fun n h => ⟨_, h.step x⟩
    | run schedule fuel _ ih => exact ih.elim fun n h => ⟨_, h.run schedule fuel⟩
  · rintro ⟨n, h⟩
    induction h with
    | refl => exact .refl
    | step x _ ih => exact ih.step x
    | run schedule fuel _ ih => exact ih.run schedule fuel

/-! ## The invariant -/

/-- The search has tried so many programs and accounts for every tree that its enumerator, which it
has asked for nothing unlawful, handed out. -/
structure Accounts (g : Grammar) (es : List Example) (n : Nat) (s : Search) : Prop where
  requests : ∃ requests, (Enumerator.new g (.ofExamples es)).after? requests = some s.enumerator
  steps : s.stats.popped = s.steps
  tried : s.stats.popped = s.stats.expanded + n

theorem accounts_of_start (h : start g es limits ev = .ok s) : s.Accounts g es 0 := by
  obtain ⟨-, rfl⟩ := start_eq_ok_iff.1 h
  exact ⟨⟨[], rfl⟩, rfl, rfl⟩

/-- **Each tree that is taken is either expanded or tried.** -/
theorem Accounts.step (hfor : s.IsFor g es ev) (h : s.Accounts g es n) (x : Signals) :
    (s.step x).2.Accounts g es (n + tries (s.step x).1) := by
  have houtcome := step_outcome hfor.faithful.numbered x
  obtain ⟨requests, hrequests⟩ := h.requests
  -- A program that was tried has no other effect than that of the pop.
  have htaken {t : Tree} {e : Enumerator} (hpop : s.enumerator.pop? = some (t, e)) :
      Accounts g es (n + 1) { s with enumerator := e, steps := s.steps + 1 } := by
    have hstats := Enumerator.stats_of_pop? hpop
    refine ⟨⟨requests ++ [.pop], ?_⟩, ?_, ?_⟩
    · rw [Enumerator.after?_append hrequests, Enumerator.after?_pop_cons hpop]
      rfl
    · rw [stats, hstats]
      exact congrArg (· + 1) h.steps
    · rw [stats, hstats]
      exact congrArg (· + 1) h.tried
  generalize (s.step x).1 = result, (s.step x).2 = s' at houtcome ⊢
  cases houtcome with
  | exhausted => exact h
  | @hindered t e err hpop hobstacle =>
    have hback := Enumerator.unpop?_of_pop? hfor.faithful.numbered hpop
    rw [tries_of_isInterruption (isInterruption_of_obstacle? hobstacle)]
    refine ⟨⟨requests ++ [.pop, .unpop t], ?_⟩, h.steps, h.tried⟩
    rw [Enumerator.after?_append hrequests, Enumerator.after?_pop_cons hpop,
      Enumerator.after?_singleton]
    exact hback
  | @expanded t e hpop hobstacle hcomplete =>
    obtain ⟨hole, hh⟩ := Tree.exists_firstHole?
      (hfor.built (Enumerator.mem_line_of_pop? hpop)).assembled hcomplete
    have hpopped : (e.expand t).2.stats.popped = s.stats.popped + 1 := by
      rw [Enumerator.stats_expand, Enumerator.tally_of_pop? hpop]
      rfl
    have hexpanded : (e.expand t).2.stats.expanded = s.stats.expanded + 1 := by
      rw [Enumerator.stats_expand, Enumerator.tally_of_pop? hpop, Enumerator.tally, hh]
      rfl
    refine ⟨⟨requests ++ [.pop, .expand t], ?_⟩, ?_, ?_⟩
    · rw [Enumerator.after?_append hrequests, Enumerator.after?_pop_cons hpop,
        Enumerator.after?_singleton]
      rfl
    · exact hpopped.trans (congrArg (· + 1) h.steps)
    · refine hpopped.trans ?_
      show _ = (e.expand t).2.stats.expanded + n
      rw [hexpanded, h.tried, Nat.add_right_comm]
  | failed hpop | rejected hpop | accepted hpop => exact htaken hpop

/-- Each program that a run tries is reported or ends it. -/
theorem Accounts.runFrom (hfor : s.IsFor g es ev)
    (h : s.Accounts g es (n + made.countP Event.isVerdict)) (schedule : Schedule) (fuel : Nat) :
    (runFrom schedule fuel made s).search.Accounts g es
      (n + (runFrom schedule fuel made s).tried) := by
  induction fuel generalizing made s with
  | zero =>
    rw [Search.runFrom, Run.tried, List.countP_reverse]
    exact h
  | succ fuel ih =>
    have hstep := h.step hfor (schedule s.steps)
    have hfor' := hfor.step (schedule s.steps)
    rw [Nat.add_assoc] at hstep
    have hmade (examined : Examined) :
        made.countP Event.isVerdict + tries (.ok examined) =
          (examined.events.reverse ++ made).countP Event.isVerdict := by
      rw [tries_ok, List.countP_append, List.countP_reverse, Nat.add_comm]
    rw [Search.runFrom]
    generalize s.step (schedule s.steps) = r at hstep hfor' ⊢
    rcases r with ⟨err | (⟨t, expansion⟩ | p | p), s'⟩
    · have hended : Run.tried ⟨some (.error err), s', made.reverse⟩ =
          made.countP Event.isVerdict + tries (.error err) := by
        rw [Run.tried, List.countP_reverse]
        cases err <;> rfl
      rw [← hended] at hstep
      exact hstep
    · rw [hmade] at hstep
      exact ih hfor' hstep
    · rw [hmade] at hstep
      exact ih hfor' hstep
    · have hended : Run.tried ⟨some (.ok p), s', made.reverse ++
            [.accepted p, .found p s'.steps, .finished s'.stats]⟩ =
          made.countP Event.isVerdict + tries (.ok (.accepted p)) := by
        rw [Run.tried, List.countP_append, List.countP_reverse]
        rfl
      rw [← hended] at hstep
      exact hstep

theorem Accounts.of_tries (hstart : start g es limits ev = .ok s₀) (h : s₀.Tries n s) :
    s.Accounts g es n := by
  have hfor {n : Nat} {s : Search} (h : s₀.Tries n s) : s.IsFor g es ev :=
    (reaches_iff_tries.2 ⟨n, h⟩).isFor (isFor_of_start hstart)
  induction h with
  | refl => exact accounts_of_start hstart
  | step x h ih => exact ih.step (hfor h) x
  | @run n s' schedule fuel h ih =>
    have hnone : s'.Accounts g es (n + [].countP Event.isVerdict) := ih
    exact hnone.runFrom (hfor h) schedule fuel

/-- The number of steps in the report of an answer is that of the search when its run is over. -/
theorem steps_of_found (hmade : ∀ k, .found p k ∉ made)
    (h : .found p k ∈ (runFrom schedule fuel made s).events) :
    k = (runFrom schedule fuel made s).search.steps := by
  induction fuel generalizing made s with
  | zero => exact absurd (List.mem_reverse.1 h) (hmade k)
  | succ fuel ih =>
    have hmore {examined : Examined} (k : Nat) :
        .found p k ∉ examined.events.reverse ++ made := by
      cases examined <;> simp [Examined.events, hmade]
    rw [Search.runFrom] at h ⊢
    generalize s.step (schedule s.steps) = r at h ⊢
    rcases r with ⟨err | (⟨t, expansion⟩ | q | q), s'⟩
    · exact absurd (List.mem_reverse.1 h) (hmade k)
    · exact ih hmore h
    · exact ih hmore h
    · have hlast : p = q ∧ k = s'.steps := by simpa [hmade] using h
      exact hlast.2

/-! ## All counters -/

/-- **The counters reconcile.** However an enumerator is used, as long as it accepts what it is
asked to put back: who is in line or popped was enqueued, who was enqueued is the start hole or was
kept by an expansion, the pruned are those that expansions pruned, and at least as many nodes were
built. Whoever is put back was popped, and the count of pops has room for it. A search uses its
enumerator so. However it has got where it is, through steps that were stopped and programs without
a value, it has popped one tree for each step, and each of them was expanded or is a program that
was tried. A run that reports an answer reports that number. -/
theorem counters_reconcile :
    (∀ (g : Grammar) (b : Bounds) (requests : List Enumerator.Request) (e : Enumerator),
      (Enumerator.new g b).after? requests = some e →
        let reports := (Enumerator.new g b).expansions requests
        e.worklist.size + e.stats.popped = e.stats.enqueued ∧
        e.stats.enqueued = 1 + (reports.map (·.kept)).sum ∧
        e.stats.pruned = (reports.map (·.pruned)).sum ∧
        e.stats.enqueued + e.stats.pruned ≤ e.stats.nodesBuilt ∧
        ∀ t e', e.unpop? t = some e' →
          1 ≤ e.stats.popped ∧ e'.stats.popped + 1 = e.stats.popped) ∧
    ∀ (g : Grammar) (es : List Example) (limits : Limits) (ev : Evaluator) (s₀ s : Search)
      (n : Nat), start g es limits ev = .ok s₀ → s₀.Tries n s →
        (∃ requests, (Enumerator.new g (.ofExamples es)).after? requests = some s.enumerator) ∧
        s.stats.popped = s.steps ∧
        s.stats.popped = s.stats.expanded + n ∧
        ∀ schedule fuel p k, .found p k ∈ (s.run schedule fuel).events →
          k = (s.run schedule fuel).search.stats.popped := by
  constructor
  · intro g b requests e hrequests
    have hbalanced := Enumerator.balanced_of_after? hrequests
    refine ⟨hbalanced.line, hbalanced.enqueued, hbalanced.pruned, hbalanced.built, ?_⟩
    intro t e' hunpop
    obtain ⟨hpopped, hstats⟩ := hbalanced.popped_of_unpop? hunpop
    rw [hstats]
    exact ⟨hpopped, Nat.sub_add_cancel hpopped⟩
  · intro g es limits ev s₀ s n hstart htries
    have haccounts := Accounts.of_tries hstart htries
    refine ⟨haccounts.requests, haccounts.steps, haccounts.tried, ?_⟩
    intro schedule fuel p k hfound
    have hend := Accounts.of_tries hstart (htries.run schedule fuel)
    rw [hend.steps]
    exact steps_of_found (by simp) hfound

/-- A tree is put back that was never in line, and once more after another pop; one pop finds
nothing. In a search, after it was stopped, a program without a value ends one run, and the next run
finds its answer in the third step. -/
theorem counters_reconcile_unbound : ∃ (e e' : Enumerator) (s₀ s : Search) (p : Program),
    (Enumerator.new .arithmetic ⟨5, ⟨5, 0, 0⟩⟩).after?
      [.pop, .pop, .expand (.mkHole .zero .numeric), .unpop (.mkLeaf .zero (.lit .one)), .pop] =
        some e ∧
    e.unpop? (.mkHole .zero .boolean) = some e' ∧ e'.stats.popped + 1 = e.stats.popped ∧
    e.worklist.size + e.stats.popped = e.stats.enqueued ∧
    start .arithmetic [⟨⟨none, some 0, some 0⟩, 0⟩] .none .interpreter = .ok s₀ ∧
    s₀.Tries 1 s ∧ s.stats.popped = s.stats.expanded + 1 ∧
    p.text = "y" ∧ .found p 3 ∈ (s.run .quiet 9).events ∧
    3 = (s.run .quiet 9).search.stats.popped := by
  let b : Bounds := ⟨5, ⟨5, 0, 0⟩⟩
  let requests : List Enumerator.Request :=
    [.pop, .pop, .expand (.mkHole .zero .numeric), .unpop (.mkLeaf .zero (.lit .one)), .pop]
  let es : List Example := [⟨⟨none, some 0, some 0⟩, 0⟩]
  let s₀ : Search := ⟨.new .arithmetic (.ofExamples es), es, .interpreter, .none, 0⟩
  let s : Search := ((s₀.step ⟨true, 0⟩).2.run .quiet 9).search
  have hview : (((Enumerator.new .arithmetic b).after? requests).bind
      (·.unpop? (.mkHole .zero .boolean))).isSome := by
    decide +kernel
  obtain ⟨e', hboth⟩ := Option.isSome_iff_exists.1 hview
  obtain ⟨e, he, hunpop⟩ := Option.bind_eq_some_iff.1 hboth
  have hstart : start .arithmetic es .none .interpreter = .ok s₀ := rfl
  have htries : s₀.Tries 1 s := by
    have hone : 0 + tries (s₀.step ⟨true, 0⟩).1 +
        ((s₀.step ⟨true, 0⟩).2.run .quiet 9).tried = 1 := by
      decide +kernel
    exact hone ▸ .run .quiet 9 (.step ⟨true, 0⟩ .refl)
  have hfound : .found ⟨.mkLeaf (.ofExamples es) (.var .y), rfl⟩ 3 ∈ (s.run .quiet 9).events := by
    decide +kernel
  obtain ⟨henumerator, hsearch⟩ := counters_reconcile
  obtain ⟨hline, -, -, -, hback⟩ := henumerator _ _ _ _ he
  obtain ⟨-, -, htaken, hreport⟩ := hsearch _ _ _ _ _ _ _ hstart htries
  exact ⟨e, e', s₀, s, _, he, hunpop, (hback _ _ hunpop).2, hline, hstart, htries, htaken,
    by decide +kernel, hfound, hreport _ _ _ _ hfound⟩

end Search

end Synthesis
