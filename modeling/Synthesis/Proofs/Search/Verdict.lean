import Synthesis.Proofs.Enumerator.Counting
import Synthesis.Proofs.Search.Repetition

/-!
# Verdicts change nothing

A search tries its programs one by one, and nothing that it learns from a trial is of use to it: a
program that meets the examples, one that misses them and one that fails are gone all the same, and
the next tree is the next in line. What the examples do have a say in is which trees are dropped,
and all that the line knows of them is their bounds. So of two searches with the same bounds and
caps, whatever their evaluators are,

> **each is where the other is, after every step** (`Peer.step`),

and what they return differs at most in what they make of the program at hand.

Each has a clock of its own, though. An evaluator takes its time, and under a cap on time it may
cost a search the steps that another still has (`hour_over_for_one`). So the two are compared under
signals that are alike: what the clocks show does not matter, only whether it is past the cap.
-/

set_option autoImplicit false

namespace Synthesis

namespace Search

variable {g : Grammar} {es es' : List Example} {ev ev' : Evaluator} {limits : Limits}
  {s s' : Search} {x x' : Signals} {history history' : List Signals}

/-! ## The tree that a step is about -/

/-- The tree that a step takes out of line and looks at, whatever comes of it. -/
def chosen? (s : Search) (x : Signals) : Option Tree :=
  s.enumerator.pop?.bind fun (t, e) =>
    if ({ s with enumerator := e }.obstacle? x).isNone then some t else none

theorem chosen?_of_free {t : Tree} {e : Enumerator} (hpop : s.enumerator.pop? = some (t, e))
    (hobstacle : { s with enumerator := e }.obstacle? x = none) : s.chosen? x = some t := by
  simp only [chosen?, hpop, Option.bind_some, hobstacle, Option.isNone_none, if_true]

theorem chosen?_of_alike (h : x.Alike s.limits x') : s.chosen? x = s.chosen? x' := by
  simp only [chosen?, obstacle?_of_alike h]

theorem mem_line_of_chosen? {t : Tree} (h : s.chosen? x = some t) : t ∈ s.enumerator.line := by
  obtain ⟨⟨u, e⟩, hpop, hu⟩ := Option.bind_eq_some_iff.1 h
  obtain ⟨-, heq⟩ := Option.ite_none_right_eq_some.1 hu
  obtain rfl := Option.some.inj heq
  exact Enumerator.mem_line_of_pop? hpop

/-- What a step reports is about the tree that it took. -/
theorem chosen?_of_ok (hnumbered : s.enumerator.Numbered) {examined : Examined}
    (h : (s.step x).1 = .ok examined) : s.chosen? x = some examined.tree := by
  have houtcome := step_outcome hnumbered x
  rw [h] at houtcome
  generalize (s.step x).2 = s' at houtcome
  cases houtcome with
  | expanded hpop hobstacle | rejected hpop hobstacle | accepted hpop hobstacle =>
    exact chosen?_of_free hpop hobstacle

/-- A program that fails is gone, and that is all. -/
theorem consumed_of_evaluation (hnumbered : s.enumerator.Numbered) {err : EvalError}
    (h : (s.step x).1 = .error (.evaluation err)) :
    ∃ (place : Place) (p : Program), s.chosen? x = some p.tree ∧
      Example.allAccept s.evaluator p s.examples = .error err ∧
      s.enumerator.worklist.toList =
        (place, p.tree) :: (s.step x).2.enumerator.worklist.toList ∧
      (s.step x).2.enumerator.nextNumber = s.enumerator.nextNumber ∧
      (s.step x).2.stats = { s.stats with popped := s.stats.popped + 1 } := by
  have houtcome := step_outcome hnumbered x
  rw [h] at houtcome
  generalize (s.step x).2 = s' at houtcome ⊢
  cases houtcome with
  | hindered hpop hobstacle =>
    exact absurd (isInterruption_of_obstacle? hobstacle) Bool.false_ne_true
  | @failed p e err hpop hobstacle haccept =>
    obtain ⟨place, hfirst, rfl⟩ := Enumerator.pop?_eq_some_iff.1 hpop
    exact ⟨place, p, chosen?_of_free hpop hobstacle, haccept, Worklist.toList_erase_first hfirst,
      rfl, rfl⟩

/-! ## Searches that differ in their verdicts -/

/-- The second search is the first one with other examples and another evaluator. -/
def Peer (s s' : Search) : Prop :=
  ∃ es ev, s' = { s with examples := es, evaluator := ev }

theorem peer_of_start (hbounds : Bounds.ofExamples es = .ofExamples es')
    (hstart : start g es limits ev = .ok s) (hstart' : start g es' limits ev' = .ok s') :
    s.Peer s' := by
  obtain ⟨-, rfl⟩ := start_eq_ok_iff.1 hstart
  obtain ⟨-, rfl⟩ := start_eq_ok_iff.1 hstart'
  rw [hbounds]
  exact ⟨es', ev', rfl⟩

theorem Peer.step (hnumbered : s.enumerator.Numbered) (h : s.Peer s') (x : Signals) :
    (s.step x).2.Peer (s'.step x).2 ∧ s.chosen? x = s'.chosen? x ∧
    ((s.step x).1 = (s'.step x).1 ∨ ∃ p : Program, s.chosen? x = some p.tree ∧
      (s.step x).1 = judged p (Example.allAccept s.evaluator p s.examples) ∧
      (s'.step x).1 = judged p (Example.allAccept s'.evaluator p s'.examples)) := by
  obtain ⟨es, ev, hs'⟩ := h
  -- The two have one line and one set of caps, and so meet the same obstacles.
  have hsame : s'.enumerator.pop? = s.enumerator.pop? := by rw [hs']
  have hmeets (e : Enumerator) :
      { s' with enumerator := e }.obstacle? x = { s with enumerator := e }.obstacle? x := by
    rw [hs']
    rfl
  have hchosen : s.chosen? x = s'.chosen? x := by simp only [chosen?, hsame, hmeets]
  cases hpop : s.enumerator.pop? with
  | none =>
    rw [step_of_exhausted hpop, step_of_exhausted (hsame.trans hpop)]
    exact ⟨⟨es, ev, hs'⟩, hchosen, .inl rfl⟩
  | some r =>
    obtain ⟨t, e⟩ := r
    cases hobstacle : { s with enumerator := e }.obstacle? x with
    | some err =>
      have hnumbered' : s'.enumerator.Numbered := by rwa [hs']
      rw [step_of_hindered hnumbered hpop hobstacle,
        step_of_hindered hnumbered' (hsame.trans hpop) ((hmeets e).trans hobstacle)]
      exact ⟨⟨es, ev, by rw [hs']⟩, hchosen, .inl rfl⟩
    | none =>
      rw [step_of_free hpop hobstacle,
        step_of_free (hsame.trans hpop) ((hmeets e).trans hobstacle)]
      cases hprogram : Program.ofTree? t with
      | none =>
        rw [examine_partial _ hprogram, examine_partial _ hprogram]
        exact ⟨⟨es, ev, by rw [hs']⟩, hchosen, .inl rfl⟩
      | some p =>
        rw [examine_program _ hprogram, examine_program _ hprogram]
        obtain rfl := Program.tree_of_ofTree? hprogram
        exact ⟨⟨es, ev, by rw [hs']⟩, hchosen,
          .inr ⟨p, chosen?_of_free hpop hobstacle, rfl, rfl⟩⟩

theorem Peer.after (hfor : s.IsFor g es ev) (h : s.Peer s') (history : List Signals) :
    (s.after history).Peer (s'.after history) := by
  induction history generalizing s s' with
  | nil => exact h
  | cons x xs ih => exact ih (hfor.step x) (h.step hfor.faithful.numbered x).1

/-! ## Two searches side by side -/

/-- **Verdicts change nothing.** Two searches in one grammar and under the same caps, for examples
with the same bounds and with any two evaluators, are stepped under signals that are alike. Then
their lines and counters are the same after every step, every step takes the same tree, and it
returns the same unless that tree is a program; then each search says what its evaluator makes of
the program on its examples. An evaluator that fails costs the search the one program that it fails
on. -/
theorem verdicts_change_nothing (hstart : start g es limits ev = .ok s)
    (hstart' : start g es' limits ev' = .ok s')
    (hbounds : Bounds.ofExamples es = .ofExamples es')
    (hhistory : List.Forall₂ (Signals.Alike limits) history history') (hx : x.Alike limits x') :
    ∃ u u', u = s.after history ∧ u' = s'.after history' ∧
      u.enumerator = u'.enumerator ∧ u.steps = u'.steps ∧ u.chosen? x = u'.chosen? x' ∧
      ((u.step x).1 = (u'.step x').1 ∨ ∃ p : Program, u.chosen? x = some p.tree ∧
        (u.step x).1 = judged p (Example.allAccept ev p es) ∧
        (u'.step x').1 = judged p (Example.allAccept ev' p es')) ∧
      (∀ examined, (u.step x).1 = .ok examined → u.chosen? x = some examined.tree) ∧
      ∀ err, (u.step x).1 = .error (.evaluation err) →
        ∃ (place : Place) (p : Program), u.chosen? x = some p.tree ∧
          Example.allAccept ev p es = .error err ∧
          u.enumerator.worklist.toList =
            (place, p.tree) :: (u.step x).2.enumerator.worklist.toList ∧
          (u.step x).2.enumerator.nextNumber = u.enumerator.nextNumber ∧
          (u.step x).2.stats = { u.stats with popped := u.stats.popped + 1 } := by
  have hfor := (isFor_of_start hstart).after history
  have hfor' := (isFor_of_start hstart').after history
  have hnumbered := hfor.faithful.numbered
  have hlimits' := limits_of_start hstart'
  -- The second search does not notice when it is given the signals of the first.
  have hsame : s'.after history' = s'.after history := by
    rw [← hlimits'] at hhistory
    exact (after_of_alike (isFor_of_start hstart') hhistory).1.symm
  rw [← hlimits', ← limits_after (isFor_of_start hstart') history] at hx
  have hpeer := (peer_of_start hbounds hstart hstart').after (isFor_of_start hstart) history
  obtain ⟨-, hchosen, hresults⟩ := hpeer.step hnumbered x
  rw [hfor.evaluator, hfor.examples, hfor'.evaluator, hfor'.examples, step_of_alike hx] at hresults
  rw [chosen?_of_alike hx] at hchosen
  obtain ⟨_, _, hu'⟩ := hpeer
  refine ⟨_, _, rfl, hsame.symm, ?_, ?_, hchosen, hresults, ?_, ?_⟩
  · rw [hu']
  · rw [hu']
  · intro examined hok
    exact chosen?_of_ok hnumbered hok
  · intro err herr
    have hconsumed := consumed_of_evaluation hnumbered herr
    rwa [hfor.evaluator, hfor.examples] at hconsumed

/-- The first leaf comes up in the second step. One search fails on it, the other, which asks for
more but has the same bounds, accepts it, and then they are still in the same place. The other takes
its time, but not all that it has. -/
theorem verdicts_change_nothing_apart : ∃ (s s' : Search) (p : Program) (limits : Limits),
    limits = { Limits.none with timeout := some 100 } ∧
    start .arithmetic [.ofValues 5 0 0 5] limits (fun _ _ => .error (.unbound .x)) = .ok s ∧
    start .arithmetic [.ofValues 5 0 0 5, .ofValues 2 0 0 5] limits (fun _ _ => .ok 5) = .ok s' ∧
    Bounds.ofExamples [.ofValues 5 0 0 5] =
      .ofExamples [.ofValues 5 0 0 5, .ofValues 2 0 0 5] ∧
    p.text = "x" ∧ (s.after [.quiet]).chosen? .quiet = some p.tree ∧
    ((s.after [.quiet]).step .quiet).1 = .error (.evaluation (.unbound .x)) ∧
    ((s'.after [⟨false, 40⟩]).step ⟨false, 80⟩).1 = .ok (.accepted p) ∧
    (∃ place, (s.after [.quiet]).enumerator.worklist.toList =
      (place, p.tree) :: ((s.after [.quiet]).step .quiet).2.enumerator.worklist.toList) ∧
    (s.after [.quiet, .quiet]).enumerator = (s'.after [⟨false, 40⟩, ⟨false, 80⟩]).enumerator := by
  let es : List Example := [.ofValues 5 0 0 5]
  let es' : List Example := [.ofValues 5 0 0 5, .ofValues 2 0 0 5]
  let limits : Limits := { Limits.none with timeout := some 100 }
  let s : Search :=
    ⟨.new .arithmetic (.ofExamples es), es, fun _ _ => .error (.unbound .x), limits, 0⟩
  let s' : Search := ⟨.new .arithmetic (.ofExamples es'), es', fun _ _ => .ok 5, limits, 0⟩
  have hstart : start .arithmetic es limits (fun _ _ => .error (.unbound .x)) = .ok s := rfl
  have hstart' : start .arithmetic es' limits (fun _ _ => .ok 5) = .ok s' := rfl
  have hbounds : Bounds.ofExamples es = .ofExamples es' := by decide
  let p : Program := ⟨.mkLeaf (.ofExamples es) (.var .x), rfl⟩
  have hchosen : (s.after [.quiet]).chosen? .quiet = some p.tree := by decide +kernel
  have hfails : ((s.after [.quiet]).step .quiet).1 = .error (.evaluation (.unbound .x)) := by
    decide +kernel
  have haccepts : ((s'.after [⟨false, 40⟩]).step ⟨false, 80⟩).1 = .ok (.accepted p) := by
    decide +kernel
  have hone : List.Forall₂ (Signals.Alike limits) [.quiet] [⟨false, 40⟩] := by decide
  have htwo : List.Forall₂ (Signals.Alike limits) [.quiet, .quiet] [⟨false, 40⟩, ⟨false, 80⟩] := by
    decide
  have hlast : Signals.quiet.Alike limits ⟨false, 80⟩ := by decide
  obtain ⟨u, u', hu, -, -, -, -, -, -, hconsumed⟩ :=
    verdicts_change_nothing hstart hstart' hbounds hone hlast
  obtain ⟨v, v', hv, hv', hsame, -⟩ :=
    verdicts_change_nothing hstart hstart' hbounds htwo hlast
  rw [hu] at hconsumed
  rw [hv, hv'] at hsame
  obtain ⟨place, q, hq, -, hline, -⟩ := hconsumed _ hfails
  rw [← Option.some.inj (hchosen.symm.trans hq)] at hline
  exact ⟨s, s', p, limits, rfl, hstart, hstart', hbounds, by decide +kernel, hchosen, hfails,
    haccepts, ⟨place, hline⟩, hsame⟩

/-- **Signals have to be alike.** Two searches for the same examples may take an hour, and nobody
asks them to stop. The first program is tried in the second step, and one evaluator takes all the
time over it. So the third step accepts the next program in one search, and in the other finds that
the time is over. -/
theorem hour_over_for_one : ∃ (s s' : Search) (p : Program) (limits : Limits),
    limits = { Limits.none with timeout := some 3600000 } ∧
    start .arithmetic [.ofValues 1 1 0 1, .ofValues 2 1 0 1] limits .interpreter = .ok s ∧
    start .arithmetic [.ofValues 1 1 0 1, .ofValues 2 1 0 1] limits (fun _ _ => .ok 0) = .ok s' ∧
    p.text = "y" ∧ ((s.after [.quiet, .quiet]).step .quiet).1 = .ok (.accepted p) ∧
    ((s'.after [.quiet, .quiet]).step ⟨false, 3600000⟩).1 =
      .error (.budget (.time 3600000)) ∧
    (s.after [.quiet, .quiet, .quiet]).stats ≠
      (s'.after [.quiet, .quiet, ⟨false, 3600000⟩]).stats := by
  let es : List Example := [.ofValues 1 1 0 1, .ofValues 2 1 0 1]
  let b := Bounds.ofExamples es
  let limits : Limits := { Limits.none with timeout := some 3600000 }
  let s : Search := ⟨.new .arithmetic b, es, .interpreter, limits, 0⟩
  let s' : Search := ⟨.new .arithmetic b, es, fun _ _ => .ok 0, limits, 0⟩
  let p : Program := ⟨.mkLeaf b (.var .y), rfl⟩
  have haccepts : ((s.after [.quiet, .quiet]).step .quiet).1 = .ok (.accepted p) := by
    decide +kernel
  have hover : ((s'.after [.quiet, .quiet]).step ⟨false, 3600000⟩).1 =
      .error (.budget (.time 3600000)) := by
    decide +kernel
  have hstats : (s.after [.quiet, .quiet, .quiet]).stats ≠
      (s'.after [.quiet, .quiet, ⟨false, 3600000⟩]).stats := by
    decide +kernel
  exact ⟨s, s', p, limits, rfl, rfl, rfl, by decide +kernel, haccepts, hover, hstats⟩

end Search

end Synthesis
