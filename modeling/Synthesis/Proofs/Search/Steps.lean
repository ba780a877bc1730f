import Synthesis.Proofs.Enumerator.Line
import Synthesis.Search.Run

/-!
# What a step of a search can do

There are six ways for a step to come out, and `Outcome` lists them with everything that holds
then. Whatever is said about steps is said by going through the six (`step_outcome`); nothing
after this module opens `Search.step`. The one thing about it that needs an argument is that a
step that may not go ahead leaves no trace: the tree that was taken goes back to where it was, and
the count of pops with it. Only which tree was popped last is forgotten, and a search never asks
for that.

`IsFor` is the invariant of a search: its grammar, bounds, examples and evaluator are still those
that it was started with, and what stands in line was made from them.

A search lives on between calls and may be stepped under changing signals, so a history is a list of
signals: `after` is the search that it leads to, `results` what the steps returned. Runs may come in
between, but a run is so many steps, and reaches nothing that steps do not (`Reaches.exists_after`).

Of its clock a search sees little. Whether the time is over is all that it asks, and that only under
a cap on time; signals that agree in this and in the request to stop are `Alike`, and no step tells
them apart (`step_of_alike`).
-/

set_option autoImplicit false

namespace Synthesis

/-- A cap or a request to stop is in the way, which says nothing about any tree. -/
def SearchError.isInterruption : SearchError → Bool
  | .budget _ | .cancelled => true
  | .noExamples | .exhausted | .evaluation _ => false

namespace Program

variable {t : Tree} {p : Program}

theorem tree_of_ofTree? (h : ofTree? t = some p) : p.tree = t := by
  unfold ofTree? at h
  split at h
  next => exact Option.some.inj h ▸ rfl
  next => exact absurd h (by simp)

theorem isComplete_of_ofTree?_eq_none (h : ofTree? t = none) : t.isComplete = false := by
  unfold ofTree? at h
  split at h
  next => exact absurd h (by simp)
  next hcomplete => exact Bool.not_eq_true _ ▸ hcomplete

end Program

/-- Signals that no search under the caps can tell apart: by both it is asked to stop or by neither,
and by both its time is over or by neither. -/
structure Signals.Alike (limits : Limits) (x y : Signals) : Prop where
  cancelled : x.cancelled = y.cancelled
  timeout : ∀ max, limits.timeout = some max → (max ≤ x.elapsed ↔ max ≤ y.elapsed)

instance (limits : Limits) (x y : Signals) : Decidable (x.Alike limits y) :=
  decidable_of_iff (x.cancelled = y.cancelled ∧
      ∀ max ∈ limits.timeout, (max ≤ x.elapsed ↔ max ≤ y.elapsed))
    ⟨fun h => ⟨h.1, h.2⟩, fun h => ⟨h.cancelled, h.timeout⟩⟩

/-- Signals that so many steps see one after the other, the first of them after the given number of
steps. -/
def Schedule.stretch (schedule : Schedule) (first n : Nat) : List Signals :=
  (List.range' first n).map schedule

/-- What a step returns on a program whose trial on the examples had the given result. -/
def judged (p : Program) : Except EvalError Bool → Except SearchError Examined
  | .error err => .error (.evaluation err)
  | .ok true => .ok (.accepted p)
  | .ok false => .ok (.rejected p)

namespace Search

variable {g : Grammar} {es : List Example} {ev : Evaluator} {limits : Limits} {s : Search}
  {signals x y : Signals} {schedule schedule' : Schedule} {t : Tree} {p : Program} {fuel : Nat}
  {made : List Event}

/-! ## Looking at a tree -/

theorem examine_partial (s : Search) (h : Program.ofTree? t = none) : s.examine t =
    (.ok (.expanded t (s.enumerator.expand t).1),
      { s with enumerator := (s.enumerator.expand t).2 }) := by
  rw [examine, h]

/-- A program changes nothing in the search that tries it. -/
theorem examine_program (s : Search) (h : Program.ofTree? t = some p) :
    s.examine t = (judged p (Example.allAccept s.evaluator p s.examples), s) := by
  rw [examine, h]
  cases hverdict : Example.allAccept s.evaluator p s.examples with
  | error err => simp only [hverdict, judged]
  | ok accepted => cases accepted <;> simp only [hverdict, judged]

theorem steps_examine (s : Search) (t : Tree) : (s.examine t).2.steps = s.steps := by
  cases hprogram : Program.ofTree? t with
  | none => rw [examine_partial _ hprogram]
  | some p => rw [examine_program _ hprogram]

/-! ## The outcomes of a step -/

/-- What a step may return, and the search that it leaves. -/
inductive Outcome (s : Search) (signals : Signals) :
    Except SearchError Examined → Search → Prop where
  | exhausted : s.enumerator.pop? = none → Outcome s signals (.error .exhausted) s
  | hindered {t : Tree} {e : Enumerator} {err : SearchError} :
      s.enumerator.pop? = some (t, e) → { s with enumerator := e }.obstacle? signals = some err →
        Outcome s signals (.error err)
          { s with enumerator := { s.enumerator with lastPopped := none } }
  | expanded {t : Tree} {e : Enumerator} :
      s.enumerator.pop? = some (t, e) → { s with enumerator := e }.obstacle? signals = none →
        t.isComplete = false →
          Outcome s signals (.ok (.expanded t (e.expand t).1))
            { s with enumerator := (e.expand t).2, steps := s.steps + 1 }
  | failed {p : Program} {e : Enumerator} {err : EvalError} :
      s.enumerator.pop? = some (p.tree, e) → { s with enumerator := e }.obstacle? signals = none →
        Example.allAccept s.evaluator p s.examples = .error err →
          Outcome s signals (.error (.evaluation err))
            { s with enumerator := e, steps := s.steps + 1 }
  | rejected {p : Program} {e : Enumerator} :
      s.enumerator.pop? = some (p.tree, e) → { s with enumerator := e }.obstacle? signals = none →
        Example.allAccept s.evaluator p s.examples = .ok false →
          Outcome s signals (.ok (.rejected p)) { s with enumerator := e, steps := s.steps + 1 }
  | accepted {p : Program} {e : Enumerator} :
      s.enumerator.pop? = some (p.tree, e) → { s with enumerator := e }.obstacle? signals = none →
        Example.allAccept s.evaluator p s.examples = .ok true →
          Outcome s signals (.ok (.accepted p)) { s with enumerator := e, steps := s.steps + 1 }

theorem step_of_exhausted (hpop : s.enumerator.pop? = none) :
    s.step signals = (.error .exhausted, s) := by
  unfold step
  rw [hpop]

theorem step_of_hindered {e : Enumerator} {err : SearchError} (h : s.enumerator.Numbered)
    (hpop : s.enumerator.pop? = some (t, e))
    (hobstacle : { s with enumerator := e }.obstacle? signals = some err) :
    s.step signals =
      (.error err, { s with enumerator := { s.enumerator with lastPopped := none } }) := by
  unfold step
  simp only [hpop, hobstacle, Enumerator.unpop?_of_pop? h hpop, Option.getD_some]

theorem step_of_free {e : Enumerator} (hpop : s.enumerator.pop? = some (t, e))
    (hobstacle : { s with enumerator := e }.obstacle? signals = none) :
    s.step signals = { s with enumerator := e, steps := s.steps + 1 }.examine t := by
  unfold step
  simp only [hpop, hobstacle]

theorem step_outcome (h : s.enumerator.Numbered) (signals : Signals) :
    s.Outcome signals (s.step signals).1 (s.step signals).2 := by
  cases hpop : s.enumerator.pop? with
  | none =>
    rw [step_of_exhausted hpop]
    exact .exhausted hpop
  | some x =>
    obtain ⟨t, e⟩ := x
    cases hobstacle : { s with enumerator := e }.obstacle? signals with
    | some err =>
      rw [step_of_hindered h hpop hobstacle]
      exact .hindered hpop hobstacle
    | none =>
      rw [step_of_free hpop hobstacle]
      cases hprogram : Program.ofTree? t with
      | none =>
        rw [examine_partial _ hprogram]
        exact .expanded hpop hobstacle (Program.isComplete_of_ofTree?_eq_none hprogram)
      | some p =>
        rw [examine_program _ hprogram]
        obtain rfl := Program.tree_of_ofTree? hprogram
        cases haccept : Example.allAccept s.evaluator p s.examples with
        | error err => exact .failed hpop hobstacle haccept
        | ok accepted =>
          cases accepted with
          | false => exact .rejected hpop hobstacle haccept
          | true => exact .accepted hpop hobstacle haccept

theorem limits_step (hnumbered : s.enumerator.Numbered) (x : Signals) :
    (s.step x).2.limits = s.limits := by
  have houtcome := step_outcome hnumbered x
  generalize (s.step x).1 = result, (s.step x).2 = s' at houtcome
  cases houtcome <;> rfl

/-! ## Obstacles -/

theorem isInterruption_of_obstacle? {err : SearchError} (h : s.obstacle? signals = some err) :
    err.isInterruption = true := by
  unfold obstacle? at h
  split at h
  · exact Option.some.inj h ▸ rfl
  · obtain ⟨budget, -, rfl⟩ := Option.map_eq_some_iff.1 h
    rfl

/-- Without caps only a request to stop is in the way. -/
theorem obstacle?_eq_none (hlimits : s.limits = .none) (hcalm : signals.cancelled = false) :
    s.obstacle? signals = none := by
  unfold obstacle? budget?
  rw [hlimits, hcalm]
  rfl

/-- Signals that are alike put the same in the way, whatever is in line. -/
theorem obstacle?_of_alike (h : x.Alike s.limits y) (e : Enumerator) :
    { s with enumerator := e }.obstacle? x = { s with enumerator := e }.obstacle? y := by
  have htime : s.limits.timeout.filter (· ≤ x.elapsed) =
      s.limits.timeout.filter (· ≤ y.elapsed) := by
    cases htimeout : s.limits.timeout with
    | none => rfl
    | some max => simp only [Option.filter_some, h.timeout max htimeout]
  rw [obstacle?, obstacle?, budget?, budget?, h.cancelled, htime]

/-- **No step tells signals apart that are alike.** -/
theorem step_of_alike (h : x.Alike s.limits y) : s.step x = s.step y := by
  unfold step
  simp only [obstacle?_of_alike h]

/-- Only an empty line is reported as such. -/
theorem line_eq_nil_of_exhausted (h : s.enumerator.Numbered)
    (hexhausted : (s.step signals).1 = .error .exhausted) : s.enumerator.line = [] := by
  have houtcome := step_outcome h signals
  rw [hexhausted] at houtcome
  generalize (s.step signals).2 = s' at houtcome
  cases houtcome with
  | exhausted hpop => exact Enumerator.pop?_eq_none_iff.1 hpop
  | hindered hpop hobstacle =>
    exact absurd (isInterruption_of_obstacle? hobstacle) Bool.false_ne_true

/-! ## The invariant -/

/-- A search in a grammar for a program that meets the examples in the eyes of an evaluator. -/
structure IsFor (g : Grammar) (es : List Example) (ev : Evaluator) (s : Search) : Prop where
  faithful : s.enumerator.Faithful
  grammar : s.enumerator.grammar = g
  bounds : s.enumerator.bounds = .ofExamples es
  examples : s.examples = es
  evaluator : s.evaluator = ev

/-- A search starts on any examples but none, from the one hole. -/
theorem start_eq_ok_iff : start g es limits ev = .ok s ↔
    es ≠ [] ∧ s = ⟨.new g (.ofExamples es), es, ev, limits, 0⟩ := by
  cases es with
  | nil => simp [start]
  | cons e es => simp [start, eq_comm]

/-- In line at first is the start hole. -/
theorem line_of_start (h : start g es limits ev = .ok s) :
    s.enumerator.line = [.mkHole (.ofExamples es) Grammar.start] := by
  obtain ⟨-, rfl⟩ := start_eq_ok_iff.1 h
  exact Enumerator.line_new g _

theorem limits_of_start (h : start g es limits ev = .ok s) : s.limits = limits := by
  obtain ⟨-, rfl⟩ := start_eq_ok_iff.1 h
  rfl

theorem isFor_of_start (h : start g es limits ev = .ok s) : s.IsFor g es ev := by
  obtain ⟨-, rfl⟩ := start_eq_ok_iff.1 h
  exact ⟨Enumerator.faithful_new g _, rfl, rfl, rfl, rfl⟩

theorem IsFor.step (h : s.IsFor g es ev) (signals : Signals) :
    (s.step signals).2.IsFor g es ev := by
  have houtcome := step_outcome h.faithful.numbered signals
  -- A tree that was popped and not put back is gone, and nothing else has changed.
  have htaken {t : Tree} {e : Enumerator} (hpop : s.enumerator.pop? = some (t, e)) (n : Nat) :
      IsFor g es ev { s with enumerator := e, steps := n } := by
    obtain ⟨hgrammar, hbounds⟩ := Enumerator.setting_of_pop? hpop
    exact ⟨h.faithful.pop hpop, hgrammar.trans h.grammar, hbounds.trans h.bounds, h.examples,
      h.evaluator⟩
  generalize (s.step signals).1 = result, (s.step signals).2 = s' at houtcome
  cases houtcome with
  | exhausted => exact h
  | hindered hpop hobstacle =>
    exact ⟨⟨h.faithful.numbered.forget, h.faithful.built, h.faithful.generates⟩, h.grammar,
      h.bounds, h.examples, h.evaluator⟩
  | expanded hpop hobstacle hcomplete =>
    obtain ⟨hgrammar, hbounds⟩ := Enumerator.setting_expand_of_pop? hpop
    exact ⟨h.faithful.expand_of_pop? hpop, hgrammar.trans h.grammar, hbounds.trans h.bounds,
      h.examples, h.evaluator⟩
  | failed hpop => exact htaken hpop _
  | rejected hpop => exact htaken hpop _
  | accepted hpop => exact htaken hpop _

/-- What is in line was built under the bounds of the examples. -/
theorem IsFor.built (h : s.IsFor g es ev) (ht : t ∈ s.enumerator.line) :
    t.Built (.ofExamples es) := by
  have hbuilt := h.faithful.built t ht
  rwa [h.bounds] at hbuilt

/-- What is kept of an expansion is told by the grammar and the examples. -/
theorem IsFor.kept_of_pop? (h : s.IsFor g es ev) {e : Enumerator}
    (hpop : s.enumerator.pop? = some (t, e)) (u : Tree) :
    e.kept u = (u.growths g (.ofExamples es)).filter fun v =>
      decide ((Bounds.ofExamples es).target ≤ v.bound) := by
  obtain ⟨hgrammar, hbounds⟩ := Enumerator.setting_of_pop? hpop
  rw [Enumerator.kept, hgrammar, hbounds, h.grammar, h.bounds]

/-! ## Histories -/

/-- The search after a step under each of the signals. -/
def after (s : Search) : List Signals → Search
  | [] => s
  | x :: xs => (s.step x).2.after xs

/-- What the steps under the signals return. -/
def results (s : Search) : List Signals → List (Except SearchError Examined)
  | [] => []
  | x :: xs => (s.step x).1 :: (s.step x).2.results xs

theorem IsFor.after (h : s.IsFor g es ev) (history : List Signals) :
    (s.after history).IsFor g es ev := by
  induction history generalizing s with
  | nil => exact h
  | cons x xs ih => exact ih (h.step x)

theorem limits_after (hfor : s.IsFor g es ev) (history : List Signals) :
    (s.after history).limits = s.limits := by
  induction history generalizing s with
  | nil => rfl
  | cons x xs ih => exact (ih (hfor.step x)).trans (limits_step hfor.faithful.numbered x)

theorem after_append (s : Search) (before later : List Signals) :
    s.after (before ++ later) = (s.after before).after later := by
  induction before generalizing s with
  | nil => rfl
  | cons x xs ih => exact ih _

theorem results_append (s : Search) (before later : List Signals) :
    s.results (before ++ later) = s.results before ++ (s.after before).results later := by
  induction before generalizing s with
  | nil => rfl
  | cons x xs ih => exact congrArg (_ :: ·) (ih _)

/-- Nor does a search tell histories apart whose signals are alike. -/
theorem after_of_alike {history history' : List Signals} (hfor : s.IsFor g es ev)
    (h : List.Forall₂ (Signals.Alike s.limits) history history') :
    s.after history = s.after history' ∧ s.results history = s.results history' := by
  generalize hlimits : s.limits = limits at h
  induction h generalizing s with
  | nil => exact ⟨rfl, rfl⟩
  | @cons x y _ _ hxy _ ih =>
    rw [← hlimits] at hxy
    have hlimits' := (limits_step hfor.faithful.numbered x).trans hlimits
    obtain ⟨hafter, hresults⟩ := ih (hfor.step x) hlimits'
    rw [after, after, results, results, ← step_of_alike hxy, hafter, hresults]
    exact ⟨rfl, rfl⟩

/-- What is among the results was returned by a step, somewhere along the way. -/
theorem exists_step_of_mem_results {history : List Signals} {r : Except SearchError Examined}
    (h : r ∈ s.results history) : ∃ before x later, history = before ++ x :: later ∧
      ((s.after before).step x).1 = r := by
  induction history generalizing s with
  | nil => exact absurd h (by simp [results])
  | cons x xs ih =>
    rcases List.mem_cons.1 h with rfl | h
    · exact ⟨[], x, xs, rfl, rfl⟩
    · obtain ⟨before, y, later, rfl, hstep⟩ := ih h
      exact ⟨x :: before, y, later, rfl, hstep⟩

/-- How a run ends whose steps return the given results. -/
def ending? : List (Except SearchError Examined) → Option (Except SearchError Program)
  | [] => none
  | .error err :: _ => some (.error err)
  | .ok (.accepted p) :: _ => some (.ok p)
  | .ok (.expanded _ _) :: rs | .ok (.rejected _) :: rs => ending? rs

/-- A step that goes ahead is counted. -/
theorem steps_of_step {examined : Examined} {s' : Search}
    (h : s.step signals = (.ok examined, s')) : s'.steps = s.steps + 1 := by
  cases hpop : s.enumerator.pop? with
  | none =>
    rw [step_of_exhausted hpop] at h
    cases h
  | some r =>
    obtain ⟨t, e⟩ := r
    cases hobstacle : { s with enumerator := e }.obstacle? signals with
    | some err =>
      unfold step at h
      simp only [hpop, hobstacle] at h
      cases h
    | none =>
      have hsteps := steps_examine { s with enumerator := e, steps := s.steps + 1 } t
      rwa [← step_of_free hpop hobstacle, h] at hsteps

/-- A run is told by what the steps of its stretch of the schedule return. -/
theorem result_runFrom (s : Search) (schedule : Schedule) (fuel : Nat) (made : List Event) :
    (runFrom schedule fuel made s).result =
      ending? (s.results (schedule.stretch s.steps fuel)) := by
  induction fuel generalizing s made with
  | zero => rfl
  | succ fuel ih =>
    rw [runFrom, Schedule.stretch, List.range'_succ, List.map_cons, results]
    rcases hstep : s.step (schedule s.steps) with ⟨err | (⟨t, expansion⟩ | p | p), s'⟩
    · rfl
    · rw [← steps_of_step hstep]
      exact ih s' _
    · rw [← steps_of_step hstep]
      exact ih s' _
    · rfl

/-- So runs under schedules whose signals are alike come to the same end. -/
theorem result_run_of_alike (hfor : s.IsFor g es ev)
    (halike : ∀ n, (schedule n).Alike s.limits (schedule' n)) (fuel : Nat) :
    (s.run schedule fuel).result = (s.run schedule' fuel).result := by
  have hstretch : List.Forall₂ (Signals.Alike s.limits) (schedule.stretch s.steps fuel)
      (schedule'.stretch s.steps fuel) := by
    rw [Schedule.stretch, Schedule.stretch, List.forall₂_map_left_iff, List.forall₂_map_right_iff,
      List.forall₂_same]
    exact fun n _ => halike n
  rw [run, run, result_runFrom, result_runFrom, (after_of_alike hfor hstretch).2]

/-- A run that is over does not go on, however many steps it may take. -/
theorem runFrom_of_le {fuel' : Nat} {r : Except SearchError Program}
    (h : (runFrom schedule fuel made s).result = some r) (hle : fuel ≤ fuel') :
    runFrom schedule fuel' made s = runFrom schedule fuel made s := by
  induction fuel generalizing fuel' made s with
  | zero => cases h
  | succ fuel ih =>
    obtain ⟨more, rfl⟩ := Nat.exists_eq_add_of_le hle
    rw [Nat.add_right_comm, runFrom, runFrom]
    rw [runFrom] at h
    rcases hstep : s.step (schedule s.steps) with ⟨err | (⟨t, expansion⟩ | p | p), s'⟩
    · rfl
    · rw [hstep] at h
      exact ih h (Nat.le_add_right _ _)
    · rw [hstep] at h
      exact ih h (Nat.le_add_right _ _)
    · rfl

/-- A run that is over ends with the first step that fails or accepts a program. -/
theorem last_step_of_runFrom {r : Except SearchError Program}
    (h : (runFrom schedule fuel made s).result = some r) :
    ∃ history x, (∀ q, .ok (.accepted q) ∉ s.results history) ∧
      ((s.after history).step x).1 = r.map .accepted := by
  induction fuel generalizing made s with
  | zero => exact absurd h (by simp [runFrom])
  | succ fuel ih =>
    rw [runFrom] at h
    split at h
    next err s' hstep =>
      obtain rfl := Option.some.inj h
      exact ⟨[], schedule s.steps, by simp [results], by rw [Search.after, hstep]; rfl⟩
    next p' s' hstep =>
      obtain rfl := Option.some.inj h
      exact ⟨[], schedule s.steps, by simp [results], by rw [Search.after, hstep]; rfl⟩
    next examined s' hnot hstep =>
      obtain ⟨history, x, hnone, hlast⟩ := ih h
      refine ⟨schedule s.steps :: history, x, ?_, ?_⟩
      · intro q hq
        rw [results, hstep] at hq
        rcases List.mem_cons.1 hq with heq | hq
        · exact hnot q (Except.ok.inj heq).symm
        · exact hnone q hq
      · rw [Search.after, hstep]
        exact hlast

/-! ## Steps and runs in any order -/

/-- The second search is what the first has become after steps and runs under whatever signals. -/
inductive Reaches (s : Search) : Search → Prop where
  | refl : Reaches s s
  | step {s' : Search} (x : Signals) : Reaches s s' → Reaches s (s'.step x).2
  | run {s' : Search} (schedule : Schedule) (fuel : Nat) :
      Reaches s s' → Reaches s (s'.run schedule fuel).search

/-- A run leaves the search where some steps would leave it. -/
theorem exists_after_of_runFrom (s : Search) (schedule : Schedule) (fuel : Nat)
    (made : List Event) : ∃ history, (runFrom schedule fuel made s).search = s.after history := by
  induction fuel generalizing made s with
  | zero => exact ⟨[], rfl⟩
  | succ fuel ih =>
    rw [runFrom]
    split
    next err s' hstep => exact ⟨[schedule s.steps], by rw [after, hstep]; rfl⟩
    next p s' hstep => exact ⟨[schedule s.steps], by rw [after, hstep]; rfl⟩
    next examined s' _ hstep =>
      obtain ⟨history, hn⟩ := ih s' (examined.events.reverse ++ made)
      exact ⟨schedule s.steps :: history, by rw [hn, after, hstep]⟩

/-- Runs add nothing to what steps reach. -/
theorem Reaches.exists_after {s' : Search} (h : s.Reaches s') :
    ∃ history, s' = s.after history := by
  induction h with
  | refl => exact ⟨[], rfl⟩
  | step x _ ih =>
    obtain ⟨history, rfl⟩ := ih
    exact ⟨history ++ [x], by rw [after_append]; rfl⟩
  | run schedule fuel _ ih =>
    obtain ⟨before, rfl⟩ := ih
    obtain ⟨later, hlater⟩ := exists_after_of_runFrom (s.after before) schedule fuel []
    exact ⟨before ++ later, by rw [after_append, ← hlater]; rfl⟩

/-- What holds at the start and is kept by each step holds of whatever is reached. -/
theorem Reaches.invariant {s' : Search} {P : Search → Prop} (h : s.Reaches s') (hstart : P s)
    (hstep : ∀ {u : Search} (x : Signals), s.Reaches u → P u → P (u.step x).2) : P s' := by
  have hafter (history : List Signals) : ∀ {u : Search}, s.Reaches u → P u →
      P (u.after history) := by
    induction history with
    | nil => exact fun _ hu => hu
    | cons x xs ih => exact fun hreaches hu => ih (hreaches.step x) (hstep x hreaches hu)
  obtain ⟨history, rfl⟩ := h.exists_after
  exact hafter history .refl hstart

theorem Reaches.isFor {s' : Search} (h : s.Reaches s') (hfor : s.IsFor g es ev) :
    s'.IsFor g es ev :=
  h.invariant hfor fun x _ hu => hu.step x

end Search

end Synthesis
