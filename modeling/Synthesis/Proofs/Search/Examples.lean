import Synthesis.Proofs.Bounds.Soundness
import Synthesis.Proofs.Evaluation.Totality
import Synthesis.Proofs.Search.Verdict

/-!
# Examples as a set

A search is given its examples as a list, and tries them one after the other up to the first that a
program misses. So their order could show in two places. The bounds could depend on it, but they are
least upper bounds. And a program could fail on one example and miss another, in which case it would
be for the order to say whether the program was wrong or the search broke down; but on examples that
bind all variables no program of a grammar fails. Beyond these two,

> **a search is told by its bounds and its verdicts** (`Twin.step`),

and by what it sees of its clock. To try an example twice takes longer than to try it once, and
under a cap on time that may make a difference (`repeated_once_too_often`), so the two searches are
given signals that are alike.
-/

set_option autoImplicit false

namespace Synthesis

namespace Search

variable {g : Grammar} {es es' : List Example} {ev ev' : Evaluator} {limits : Limits}
  {s s' : Search}

/-! ## Searches with the same verdicts -/

/-- Two searches that differ in nothing but what they make of a program. -/
structure Twin (g : Grammar) (es es' : List Example) (ev ev' : Evaluator) (s s' : Search) :
    Prop where
  left : s.IsFor g es ev
  right : s'.IsFor g es' ev'
  peer : s.Peer s'

/-- Each evaluator makes of every program of the grammar on its examples what the other does. -/
def Concordant (g : Grammar) (es es' : List Example) (ev ev' : Evaluator) : Prop :=
  ∀ {p : Program} {b : Bounds}, g.Generates .numeric p.tree → p.tree.Built b →
    Example.allAccept ev p es = Example.allAccept ev' p es'

theorem Twin.step (h : Twin g es es' ev ev' s s') (hverdicts : Concordant g es es' ev ev')
    (x : Signals) :
    (s.step x).1 = (s'.step x).1 ∧ Twin g es es' ev ev' (s.step x).2 (s'.step x).2 := by
  obtain ⟨hpeer, -, hresults⟩ := h.peer.step h.left.faithful.numbered x
  refine ⟨?_, h.left.step x, h.right.step x, hpeer⟩
  rcases hresults with heq | ⟨p, hchosen, hresult, hresult'⟩
  · exact heq
  · have hmem := mem_line_of_chosen? hchosen
    have hgen := h.left.faithful.generates _ hmem
    rw [h.left.grammar] at hgen
    rw [hresult, hresult', h.left.evaluator, h.left.examples, h.right.evaluator,
      h.right.examples, hverdicts hgen (h.left.built hmem)]

theorem Twin.results (h : Twin g es es' ev ev' s s') (hverdicts : Concordant g es es' ev ev')
    (history : List Signals) : s.results history = s'.results history ∧
      Twin g es es' ev ev' (s.after history) (s'.after history) := by
  induction history generalizing s s' with
  | nil => exact ⟨rfl, h⟩
  | cons x xs ih =>
    obtain ⟨hresult, hnext⟩ := h.step hverdicts x
    obtain ⟨hresults, hafter⟩ := ih hnext
    exact ⟨congrArg₂ List.cons hresult hresults, hafter⟩

/-! ## Reordered and repeated examples -/

theorem concordant_of_same (hsame : ∀ e, e ∈ es ↔ e ∈ es')
    (hbinds : ∀ e ∈ es, BindsAll e.input) : Concordant g es es' .interpreter .interpreter :=
  fun hgen hb => Example.allAccept_congr hbinds hsame hgen hb

/-- Searches for the same examples, in whatever order and however often given, start as twins. -/
theorem exists_twin_of_start (hsame : ∀ e, e ∈ es ↔ e ∈ es')
    (hstart : start g es limits ev = .ok s) :
    ∃ s', start g es' limits ev = .ok s' ∧ Twin g es es' ev ev s s' := by
  have hes : es' ≠ [] := by
    obtain ⟨e, he⟩ := List.exists_mem_of_ne_nil es (start_eq_ok_iff.1 hstart).1
    exact List.ne_nil_of_mem ((hsame e).1 he)
  obtain ⟨s', hstart'⟩ : ∃ s', start g es' limits ev = .ok s' :=
    ⟨_, start_eq_ok_iff.2 ⟨hes, rfl⟩⟩
  exact ⟨s', hstart', isFor_of_start hstart, isFor_of_start hstart',
    peer_of_start (Bounds.ofExamples_congr hsame) hstart hstart'⟩

theorem Twin.result_run (h : Twin g es es' ev ev' s s') (hverdicts : Concordant g es es' ev ev')
    (schedule : Schedule) (fuel : Nat) :
    (s.run schedule fuel).result = (s'.run schedule fuel).result := by
  have hresults := (h.results hverdicts (schedule.stretch s.steps fuel)).1
  obtain ⟨_, _, hpeer⟩ := h.peer
  have hsteps : s.steps = s'.steps := by rw [hpeer]
  rw [run, run, result_runFrom, result_runFrom, hresults, hsteps]

/-- **Examples are a set.** A search on examples that bind all variables is matched by the one on
the same examples in another order or given more or less often. Under signals that are alike both
return the same step by step and have counted the same, their runs come to the same end, and so does
the search for a program as a whole. -/
theorem examples_as_a_set (hstart : start g es limits .interpreter = .ok s)
    (hsame : ∀ e, e ∈ es ↔ e ∈ es') (hbinds : ∀ e ∈ es, BindsAll e.input) :
    ∃ s', start g es' limits .interpreter = .ok s' ∧
      (∀ history history', List.Forall₂ (Signals.Alike limits) history history' →
        s.results history = s'.results history' ∧
        (s.after history).stats = (s'.after history').stats) ∧
      ∀ schedule schedule' : Schedule, (∀ n, (schedule n).Alike limits (schedule' n)) →
        ∀ fuel, (s.run schedule fuel).result = (s'.run schedule' fuel).result ∧
          synthesize g es limits schedule fuel = synthesize g es' limits schedule' fuel := by
  have hverdicts : Concordant g es es' .interpreter .interpreter := concordant_of_same hsame hbinds
  obtain ⟨s', hstart', htwin⟩ := exists_twin_of_start hsame hstart
  have hlimits := limits_of_start hstart
  refine ⟨s', hstart', ?_, ?_⟩
  · intro history history' halike
    rw [← hlimits] at halike
    obtain ⟨hafter, hresults⟩ := after_of_alike htwin.left halike
    obtain ⟨hresults', hafter'⟩ := htwin.results hverdicts history'
    obtain ⟨_, _, hpeer⟩ := hafter'.peer
    exact ⟨hresults.trans hresults', by rw [hafter, hpeer]; rfl⟩
  · intro schedule schedule' halike fuel
    rw [← hlimits] at halike
    have hrun : (s.run schedule fuel).result = (s'.run schedule' fuel).result :=
      (result_run_of_alike htwin.left halike fuel).trans (htwin.result_run hverdicts schedule' fuel)
    refine ⟨hrun, ?_⟩
    rw [synthesize, synthesize, hstart, hstart']
    exact hrun

/-- The identity is found from two examples, in either order and with one of them twice, and an
interruption is met in the same way, although one clock is ahead of the other. -/
theorem examples_as_a_set_reordered : ∃ (s s' : Search) (p : Program) (limits : Limits),
    limits = { Limits.none with timeout := some 100 } ∧
    start .arithmetic [.ofValues 5 0 0 5, .ofValues 2 0 0 2] limits .interpreter = .ok s ∧
    start .arithmetic [.ofValues 2 0 0 2, .ofValues 5 0 0 5, .ofValues 2 0 0 2] limits
      .interpreter = .ok s' ∧
    (∀ e ∈ [Example.ofValues 5 0 0 5, .ofValues 2 0 0 2], BindsAll e.input) ∧
    s.results [.quiet, ⟨true, 0⟩, .quiet] = s'.results [.quiet, ⟨true, 70⟩, ⟨false, 90⟩] ∧
    (s.after [.quiet, ⟨true, 0⟩, .quiet]).stats =
      (s'.after [.quiet, ⟨true, 70⟩, ⟨false, 90⟩]).stats ∧
    p.text = "x" ∧
    synthesize .arithmetic [.ofValues 2 0 0 2, .ofValues 5 0 0 5, .ofValues 2 0 0 2] limits
      (.ofClock fun _ => 50) 2 = some (.ok p) := by
  let es : List Example := [.ofValues 5 0 0 5, .ofValues 2 0 0 2]
  let b := Bounds.ofExamples es
  let limits : Limits := { Limits.none with timeout := some 100 }
  let s : Search := ⟨.new .arithmetic b, es, .interpreter, limits, 0⟩
  let p : Program := ⟨.mkLeaf b (.var .x), rfl⟩
  have hstart : start .arithmetic es limits .interpreter = .ok s := rfl
  have hsame : ∀ e, e ∈ es ↔ e ∈ [.ofValues 2 0 0 2, .ofValues 5 0 0 5, .ofValues 2 0 0 2] := by
    simp [es, or_comm]
  have hbinds : ∀ e ∈ es, BindsAll e.input := by
    intro e he v
    rcases List.mem_cons.1 he with rfl | he
    · cases v <;> exact ⟨_, rfl⟩
    · obtain rfl := List.mem_singleton.1 he
      cases v <;> exact ⟨_, rfl⟩
  have hhistory : List.Forall₂ (Signals.Alike limits) [.quiet, ⟨true, 0⟩, .quiet]
      [.quiet, ⟨true, 70⟩, ⟨false, 90⟩] := by
    decide
  have hhalf : Signals.quiet.Alike limits ⟨false, 50⟩ := by decide
  have hfound : synthesize .arithmetic es limits .quiet 2 = some (.ok p) := by decide +kernel
  obtain ⟨s', hstart', hsteps, hruns⟩ := examples_as_a_set hstart hsame hbinds
  obtain ⟨hresults, hstats⟩ := hsteps _ _ hhistory
  obtain ⟨-, hwhole⟩ := hruns .quiet (.ofClock fun _ => 50) (fun _ => hhalf) 2
  exact ⟨s, s', p, limits, rfl, hstart, hstart', hbinds, hresults, hstats, by decide +kernel,
    hwhole.symm.trans hfound⟩

/-- **Signals have to be alike here, too.** Two searches have an hour. The second one is given an
example twice and takes, for all its steps, a little longer than the first; so when the first has
just enough time for its third step, and finds its program in it, the time of the second is over. -/
theorem repeated_once_too_often : ∃ (s s' : Search) (p : Program) (limits : Limits),
    limits = { Limits.none with timeout := some 3600000 } ∧
    start .arithmetic [.ofValues 1 1 0 1, .ofValues 2 1 0 1] limits .interpreter = .ok s ∧
    start .arithmetic [.ofValues 1 1 0 1, .ofValues 1 1 0 1, .ofValues 2 1 0 1] limits
      .interpreter = .ok s' ∧
    p.text = "y" ∧
    ((s.after [.quiet, .quiet]).step ⟨false, 3599999⟩).1 = .ok (.accepted p) ∧
    ((s'.after [.quiet, .quiet]).step ⟨false, 3600000⟩).1 =
      .error (.budget (.time 3600000)) ∧
    synthesize .arithmetic [.ofValues 1 1 0 1, .ofValues 2 1 0 1] limits
      (.ofClock fun n => 1799999 * n) 3 = some (.ok p) ∧
    synthesize .arithmetic [.ofValues 1 1 0 1, .ofValues 1 1 0 1, .ofValues 2 1 0 1] limits
      (.ofClock fun n => 1800000 * n) 3 = some (.error (.budget (.time 3600000))) := by
  let es : List Example := [.ofValues 1 1 0 1, .ofValues 2 1 0 1]
  let es' : List Example := [.ofValues 1 1 0 1, .ofValues 1 1 0 1, .ofValues 2 1 0 1]
  let limits : Limits := { Limits.none with timeout := some 3600000 }
  let s : Search := ⟨.new .arithmetic (.ofExamples es), es, .interpreter, limits, 0⟩
  let s' : Search := ⟨.new .arithmetic (.ofExamples es'), es', .interpreter, limits, 0⟩
  let p : Program := ⟨.mkLeaf (.ofExamples es) (.var .y), rfl⟩
  have haccepts : ((s.after [.quiet, .quiet]).step ⟨false, 3599999⟩).1 = .ok (.accepted p) := by
    decide +kernel
  have hover : ((s'.after [.quiet, .quiet]).step ⟨false, 3600000⟩).1 =
      .error (.budget (.time 3600000)) := by
    decide +kernel
  have hfound : synthesize .arithmetic es limits (.ofClock fun n => 1799999 * n) 3 =
      some (.ok p) := by
    decide +kernel
  have hnone : synthesize .arithmetic es' limits (.ofClock fun n => 1800000 * n) 3 =
      some (.error (.budget (.time 3600000))) := by
    decide +kernel
  exact ⟨s, s', p, limits, rfl, rfl, rfl, by decide +kernel, haccepts, hover, hfound, hnone⟩

end Search

end Synthesis
