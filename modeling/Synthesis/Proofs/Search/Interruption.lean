import Synthesis.Proofs.Search.Steps

/-!
# Interruptions only delay

Caps and requests to stop are looked at with a tree already in hand, and the counters have moved by
then. What makes a search resumable is that all of this is undone, and the way to say so is to
compare it with a search that is never in anyone's way:

> **without the results of interrupted steps, a search returns what the uncapped search returns**
> (`interruptions_only_delay`), however often it was stopped and at which trees.

`Uncapped` relates the two searches. They are the same but for the caps, and for which tree was
popped last, which no step looks at. An interrupted step keeps the relation without the uncapped
search moving at all; any other step is taken by both, with the same result (`Uncapped.step`).
-/

set_option autoImplicit false

namespace Synthesis

/-- The step was kept from looking at a tree. -/
def interrupted : Except SearchError Examined → Bool
  | .error e => e.isInterruption
  | .ok _ => false

/-- The results without those of interrupted steps. -/
def uninterrupted (results : List (Except SearchError Examined)) :
    List (Except SearchError Examined) :=
  results.filter fun r => !interrupted r

namespace Search

variable {g : Grammar} {es : List Example} {ev : Evaluator} {limits : Limits} {s free : Search}
  {x y : Signals} {p : Program}

/-! ## Searches that differ in their caps -/

/-- The second search is the first one without caps. Which tree was popped last may differ. -/
def Uncapped (s free : Search) : Prop :=
  ∃ last, free = { s with
    limits := .none, enumerator := { s.enumerator with lastPopped := last } }

theorem exists_uncapped_of_start (h : start g es limits ev = .ok s) :
    ∃ free, start g es .none ev = .ok free ∧ s.Uncapped free := by
  obtain ⟨hes, rfl⟩ := start_eq_ok_iff.1 h
  exact ⟨_, start_eq_ok_iff.2 ⟨hes, rfl⟩, none, rfl⟩

/-- Looking at a tree has nothing to do with the caps. -/
theorem examine_limits (s : Search) (l : Limits) (t : Tree) :
    { s with limits := l }.examine t =
      ((s.examine t).1, { (s.examine t).2 with limits := l }) := by
  cases hprogram : Program.ofTree? t with
  | none => rw [examine_partial _ hprogram, examine_partial _ hprogram]
  | some p => rw [examine_program _ hprogram, examine_program _ hprogram]

theorem interrupted_judged (p : Program) (verdict : Except EvalError Bool) :
    interrupted (judged p verdict) = false := by
  cases verdict with
  | error err => rfl
  | ok accepted => cases accepted <;> rfl

theorem interrupted_examine (s : Search) (t : Tree) : interrupted (s.examine t).1 = false := by
  cases hprogram : Program.ofTree? t with
  | none =>
    rw [examine_partial _ hprogram]
    rfl
  | some p =>
    rw [examine_program _ hprogram]
    exact interrupted_judged p _

/-! ## One step and many -/

/-- A step is interrupted and leaves no trace, or it is the step of the uncapped search. -/
theorem Uncapped.step (hnumbered : s.enumerator.Numbered) (h : s.Uncapped free) (x : Signals) :
    interrupted (s.step x).1 = true ∧ (s.step x).2.Uncapped free ∨
    interrupted (s.step x).1 = false ∧ ∀ y : Signals, y.cancelled = false →
      (s.step x).1 = (free.step y).1 ∧ (s.step x).2.Uncapped (free.step y).2 := by
  obtain ⟨last, hfree⟩ := h
  have hlimits : free.limits = .none := by rw [hfree]
  -- A pop overwrites the one thing in which the enumerators differ.
  have hsame : free.enumerator.pop? = s.enumerator.pop? := by
    rw [hfree]
    rfl
  cases hpop : s.enumerator.pop? with
  | none =>
    right
    rw [step_of_exhausted hpop]
    refine ⟨rfl, ?_⟩
    intro y _
    rw [step_of_exhausted (hsame.trans hpop)]
    exact ⟨rfl, last, hfree⟩
  | some r =>
    obtain ⟨t, e⟩ := r
    cases hobstacle : { s with enumerator := e }.obstacle? x with
    | some err =>
      left
      rw [step_of_hindered hnumbered hpop hobstacle]
      exact ⟨isInterruption_of_obstacle? hobstacle, last, hfree⟩
    | none =>
      right
      rw [step_of_free hpop hobstacle]
      refine ⟨interrupted_examine _ _, ?_⟩
      intro y hcalm
      have htaken : { free with enumerator := e, steps := free.steps + 1 } =
          { { s with enumerator := e, steps := s.steps + 1 } with limits := .none } := by
        rw [hfree]
      rw [step_of_free (hsame.trans hpop) (obstacle?_eq_none hlimits hcalm), htaken,
        examine_limits]
      exact ⟨rfl, _, rfl⟩

/-- What an uninterrupted step returns is what the next step of the uncapped search returns. -/
theorem Uncapped.results (hfor : s.IsFor g es ev) (h : s.Uncapped free)
    {history calm : List Signals} (hcalm : ∀ y ∈ calm, y.cancelled = false)
    (hlength : calm.length = (uninterrupted (s.results history)).length) :
    uninterrupted (s.results history) = free.results calm := by
  induction history generalizing s free calm with
  | nil =>
    obtain rfl := List.eq_nil_of_length_eq_zero hlength
    rfl
  | cons x xs ih =>
    rw [Search.results, uninterrupted, List.filter_cons] at hlength ⊢
    rcases h.step hfor.faithful.numbered x with ⟨hstop, hnext⟩ | ⟨hgo, hnext⟩
    · simp only [hstop, Bool.not_true, Bool.false_eq_true, if_false] at hlength ⊢
      exact ih (hfor.step x) hnext hcalm hlength
    · simp only [hgo, Bool.not_false, if_true, List.length_cons] at hlength ⊢
      obtain ⟨y, ys, rfl⟩ := List.exists_cons_of_length_eq_add_one hlength
      obtain ⟨hresult, hnext⟩ := hnext y (hcalm y (by simp))
      have hrest : ∀ z ∈ ys, z.cancelled = false := fun z hz => hcalm z (by simp [hz])
      have hih := ih (hfor.step x) hnext hrest (Nat.succ.inj hlength)
      rw [Search.results, ← hih, hresult]
      rfl

/-- A run that finds a program was never interrupted. -/
theorem Uncapped.runFrom {schedule calm : Schedule} {fuel : Nat} {made made' : List Event}
    (hfor : s.IsFor g es ev) (h : s.Uncapped free) (hcalm : ∀ n, (calm n).cancelled = false)
    (hrun : (runFrom schedule fuel made s).result = some (.ok p)) :
    (runFrom calm fuel made' free).result = some (.ok p) := by
  induction fuel generalizing s free made made' with
  | zero => exact absurd hrun (by simp [Search.runFrom])
  | succ fuel ih =>
    have hstep := h.step hfor.faithful.numbered (schedule s.steps)
    have hfor' := hfor.step (schedule s.steps)
    rw [Search.runFrom] at hrun ⊢
    rcases hresult : s.step (schedule s.steps) with ⟨result, s'⟩
    rw [hresult] at hstep hrun hfor'
    rcases hstep with ⟨hstop, -⟩ | ⟨-, hnext⟩
    · cases result with
      | error err => exact absurd hrun (by simp)
      | ok examined => exact absurd hstop Bool.false_ne_true
    · obtain ⟨heq, hnext⟩ := hnext (calm free.steps) (hcalm _)
      rcases hresult' : free.step (calm free.steps) with ⟨result', free'⟩
      rw [hresult'] at heq hnext
      obtain rfl : result = result' := heq
      rcases result with err | (⟨t, expansion⟩ | q | q)
      · exact absurd hrun (by simp)
      · exact ih hfor' hnext hrun
      · exact ih hfor' hnext hrun
      · exact hrun

end Search

variable {g : Grammar} {es : List Example} {ev : Evaluator} {limits : Limits} {s : Search}

/-- **Interruptions only delay.** Whatever the caps are and whenever a search is asked to stop, the
results of the steps that went ahead are the first results of the search that has no caps and is
never asked to stop, no matter how its time passes. A program found under caps is found without,
whatever the two clocks show. -/
theorem Search.interruptions_only_delay (hstart : start g es limits ev = .ok s) :
    ∃ free, start g es .none ev = .ok free ∧
      (∀ history calm : List Signals, calm.length = (uninterrupted (s.results history)).length →
        (∀ y ∈ calm, y.cancelled = false) →
          uninterrupted (s.results history) = free.results calm) ∧
      ∀ schedule calm fuel p, (∀ n, (calm n).cancelled = false) →
        synthesize g es limits schedule fuel = some (.ok p) →
          synthesize g es .none calm fuel = some (.ok p) := by
  obtain ⟨free, hfree, huncapped⟩ := exists_uncapped_of_start hstart
  refine ⟨free, hfree, ?_, ?_⟩
  · intro history calm hlength hcalm
    exact huncapped.results (isFor_of_start hstart) hcalm hlength
  · intro schedule calm fuel p hcalm hfound
    unfold synthesize at hfound ⊢
    cases hstart' : start g es limits .interpreter with
    | error err =>
      rw [hstart'] at hfound
      exact absurd hfound (by simp)
    | ok s' =>
      obtain ⟨free', hfree', huncapped'⟩ := exists_uncapped_of_start hstart'
      rw [hstart'] at hfound
      rw [hfree']
      exact huncapped'.runFrom (isFor_of_start hstart') hcalm hfound

/-- Asked to stop twice and then out of steps, a search has taken the first two steps all the same;
with five steps it has enough to find its program. -/
theorem Search.interruptions_only_delay_resumed : ∃ (s free : Search) (p : Program),
    start .arithmetic [.ofValues 5 0 0 5] { Limits.none with maxSteps := some 2 } .interpreter =
      .ok s ∧
    start .arithmetic [.ofValues 5 0 0 5] .none .interpreter = .ok free ∧
    uninterrupted (s.results [.quiet, ⟨true, 0⟩, ⟨true, 9⟩, .quiet, .quiet]) =
      free.results [.quiet, ⟨false, 20⟩] ∧
    p.text = "x" ∧
    synthesize .arithmetic [.ofValues 5 0 0 5] { Limits.none with maxSteps := some 5 }
      (.ofClock fun n => 7 * n) 5 = some (.ok p) ∧
    synthesize .arithmetic [.ofValues 5 0 0 5] .none .quiet 5 = some (.ok p) := by
  let es : List Example := [.ofValues 5 0 0 5]
  let b := Bounds.ofExamples es
  let s (cap : Nat) : Search :=
    ⟨.new .arithmetic b, es, .interpreter, { Limits.none with maxSteps := some cap }, 0⟩
  have hstart (cap : Nat) :
      start .arithmetic es { Limits.none with maxSteps := some cap } .interpreter = .ok (s cap) :=
    rfl
  have hlength : (uninterrupted
      ((s 2).results [.quiet, ⟨true, 0⟩, ⟨true, 9⟩, .quiet, .quiet])).length = 2 := by
    decide +kernel
  have hfound : synthesize .arithmetic es { Limits.none with maxSteps := some 5 }
      (.ofClock fun n => 7 * n) 5 = some (.ok ⟨.mkLeaf b (.var .x), rfl⟩) := by decide +kernel
  obtain ⟨free, hfree, hresults, -⟩ := interruptions_only_delay (hstart 2)
  obtain ⟨-, -, -, hsame⟩ := interruptions_only_delay (hstart 5)
  exact ⟨s 2, free, _, rfl, hfree, hresults _ _ hlength.symm (by decide), by decide +kernel, hfound,
    hsame _ _ 5 _ (fun _ => rfl) hfound⟩

end Synthesis
