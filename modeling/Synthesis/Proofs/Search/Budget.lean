import Synthesis.Proofs.Enumerator.Counting
import Synthesis.Proofs.Search.Steps

/-!
# What caps do to a search

Caps are looked at with a tree in hand, so that some of what is measured has moved by then and some
has not: the queue is short by one, the pop is counted and the step is not. Said of the search as it
stood before, the rule is plain. `Hits` tells what is in the way, in terms of the counters that
everyone can read, and

> **a step reports the foremost of what is in the way** (`step_of_foremost`, `foremost_of_step`),
> and leaves everything as it was, so that the next step meets the same.

That the step count can be told by the counters at all is part of the invariant `Metered`. The rest
of it says how far the counters can get: a step that goes ahead was under every cap, and then makes
one pop, and at most one expansion.
-/

set_option autoImplicit false

namespace Synthesis

/-- The order in which reasons to stop are reported. -/
def SearchError.rank : SearchError → Nat
  | .cancelled => 0
  | .budget (.steps _) => 1
  | .budget (.nodes _) => 2
  | .budget (.queue _) => 3
  | .budget (.time _) => 4
  | .noExamples | .exhausted | .evaluation _ => 5

namespace Search

variable {g : Grammar} {es : List Example} {ev : Evaluator} {limits : Limits} {s₀ s u : Search}
  {x y : Signals} {err : SearchError} {t : Tree} {e : Enumerator}

/-! ## What is in the way -/

/-- A request to stop or a cap is in the way of a step. The tree that the step would take does not
count for the queue. -/
def Hits (s : Search) (x : Signals) : SearchError → Prop
  | .cancelled => x.cancelled = true
  | .budget (.steps max) => s.limits.maxSteps = some max ∧ max ≤ s.stats.popped
  | .budget (.nodes max) => s.limits.maxNodes = some max ∧ max < s.stats.nodesBuilt
  | .budget (.queue max) => s.limits.maxQueue = some max ∧ max < s.enumerator.worklist.size - 1
  | .budget (.time max) => s.limits.timeout = some max ∧ max ≤ x.elapsed
  | .noExamples | .exhausted | .evaluation _ => False

/-- In the way, and reported before all else that is. -/
def Foremost (s : Search) (x : Signals) (err : SearchError) : Prop :=
  s.Hits x err ∧ ∀ other, s.Hits x other → err.rank ≤ other.rank

theorem Hits.isInterruption (h : s.Hits x err) : err.isInterruption = true := by
  cases err with
  | budget | cancelled => rfl
  | noExamples | exhausted | evaluation => exact False.elim h

theorem Hits.rank_le (h : s.Hits x err) : err.rank ≤ 4 := by
  cases err with
  | budget b => cases b <;> simp [SearchError.rank]
  | cancelled => simp [SearchError.rank]
  | noExamples | exhausted | evaluation => exact False.elim h

/-- The caps that are hit, in the order in which they are looked at. -/
def caps (s : Search) (x : Signals) : List Budget :=
  ((s.limits.maxSteps.filter (· ≤ s.stats.popped)).map Budget.steps).toList ++
  ((s.limits.maxNodes.filter (· < s.stats.nodesBuilt)).map Budget.nodes).toList ++
  ((s.limits.maxQueue.filter (· < s.enumerator.worklist.size - 1)).map Budget.queue).toList ++
  ((s.limits.timeout.filter (· ≤ x.elapsed)).map Budget.time).toList

/-- All that is in the way, in the order in which it is looked at. -/
def obstacles (s : Search) (x : Signals) : List SearchError :=
  (if x.cancelled then [.cancelled] else []) ++ (s.caps x).map .budget

theorem mem_obstacles : err ∈ s.obstacles x ↔ s.Hits x err := by
  unfold obstacles caps
  simp only [List.mem_append, List.mem_map, Option.mem_toList, Option.map_eq_some_iff,
    Option.filter_eq_some_iff, decide_eq_true_eq]
  rcases err with _ | (_ | _ | _ | _) | _ | _ | _
  all_goals by_cases hcancelled : x.cancelled = true
  all_goals simp [Hits, hcancelled]

theorem pairwise_obstacles (s : Search) (x : Signals) :
    (s.obstacles x).Pairwise (·.rank < ·.rank) := by
  have hone (o : Option Budget) :
      o.toList.Pairwise fun a b => (SearchError.budget a).rank < (SearchError.budget b).rank := by
    cases o <;> simp
  unfold obstacles caps
  simp only [List.pairwise_append, List.pairwise_map, List.mem_append, List.mem_map,
    Option.mem_toList, Option.map_eq_some_iff]
  refine ⟨?_, ⟨⟨⟨hone _, hone _, ?steps⟩, hone _, ?nodes⟩, hone _, ?queue⟩, ?cancelled⟩
  · split <;> simp
  all_goals grind [SearchError.rank]

theorem head?_obstacles : (s.obstacles x).head? = some err ↔ s.Foremost x err := by
  have hsorted := pairwise_obstacles s x
  simp only [Foremost, ← mem_obstacles]
  cases hall : s.obstacles x with
  | nil => simp
  | cons first rest =>
    rw [hall] at hsorted
    have hfirst := (List.pairwise_cons.1 hsorted).1
    rw [List.head?_cons, Option.some.injEq]
    constructor
    · rintro rfl
      refine ⟨List.mem_cons_self, ?_⟩
      intro other hother
      rcases List.mem_cons.1 hother with rfl | hother
      · exact Nat.le_refl _
      · exact Nat.le_of_lt (hfirst other hother)
    · rintro ⟨hmem, hle⟩
      rcases List.mem_cons.1 hmem with rfl | hmem
      · rfl
      · exact absurd (hle first List.mem_cons_self) (Nat.not_le.2 (hfirst err hmem))

theorem exists_foremost (h : s.Hits x err) : ∃ first, s.Foremost x first := by
  cases hall : (s.obstacles x).head? with
  | none =>
    rw [← mem_obstacles, List.head?_eq_none_iff.1 hall] at h
    exact absurd h (by simp)
  | some first => exact ⟨first, head?_obstacles.1 hall⟩

/-- A request to stop and the counters stay as they are, and time only passes. -/
theorem Foremost.later (h : s.Foremost x err) (hflag : y.cancelled = x.cancelled)
    (htime : x.elapsed ≤ y.elapsed) : s.Foremost y err := by
  obtain ⟨hhits, hfirst⟩ := h
  constructor
  · rcases err with _ | (_ | _ | _ | _) | _ | _ | _
    case budget.time => exact ⟨hhits.1, hhits.2.trans htime⟩
    case cancelled => exact hflag.trans hhits
    all_goals exact hhits
  · intro other hother
    rcases other with _ | (_ | _ | _ | max) | _ | _ | _
    -- Nothing but time can newly be in the way, and time comes last.
    case budget.time => exact hhits.rank_le
    case cancelled => exact hfirst .cancelled (hflag.symm.trans hother)
    all_goals exact hfirst _ hother

/-! ## Steps under caps -/

/-- With the next tree in hand, what is found in the way is what was in the way before. -/
theorem obstacle?_of_pop? (hsteps : s.steps = s.stats.popped)
    (hpop : s.enumerator.pop? = some (t, e)) :
    { s with enumerator := e }.obstacle? x = (s.obstacles x).head? := by
  have hnodes : e.stats.nodesBuilt = s.stats.nodesBuilt := by
    rw [Enumerator.stats_of_pop? hpop]
    rfl
  have hcaps : { s with enumerator := e }.budget? x = (s.caps x).head? := by
    simp only [budget?, caps, stats, hsteps, hnodes, Enumerator.size_of_pop? hpop,
      List.head?_append, Option.head?_toList, Option.orElse_eq_orElse, Option.orElse_eq_or,
      Option.or_assoc]
    rfl
  unfold obstacle? obstacles
  rw [hcaps]
  cases x.cancelled with
  | true => rfl
  | false => exact (List.head?_map ..).symm

theorem step_of_foremost (hnumbered : s.enumerator.Numbered) (hsteps : s.steps = s.stats.popped)
    (hline : 0 < s.enumerator.worklist.size) (h : s.Foremost x err) :
    s.step x = (.error err, { s with enumerator := { s.enumerator with lastPopped := none } }) := by
  cases hpop : s.enumerator.pop? with
  | none =>
    rw [← Enumerator.length_line, Enumerator.pop?_eq_none_iff.1 hpop] at hline
    exact absurd hline (by simp)
  | some r =>
    exact step_of_hindered hnumbered hpop ((obstacle?_of_pop? hsteps hpop).trans
      (head?_obstacles.2 h))

theorem foremost_of_step (hnumbered : s.enumerator.Numbered) (hsteps : s.steps = s.stats.popped)
    (hinterruption : err.isInterruption = true) (h : (s.step x).1 = .error err) :
    s.Foremost x err := by
  have houtcome := step_outcome hnumbered x
  rw [h] at houtcome
  generalize (s.step x).2 = s' at houtcome
  cases houtcome with
  | exhausted | failed => exact absurd hinterruption (by simp [SearchError.isInterruption])
  | hindered hpop hobstacle =>
    rw [obstacle?_of_pop? hsteps hpop] at hobstacle
    exact head?_obstacles.1 hobstacle

/-- A step goes ahead only under all caps. -/
theorem not_hits_of_free (hsteps : s.steps = s.stats.popped)
    (hpop : s.enumerator.pop? = some (t, e))
    (hobstacle : { s with enumerator := e }.obstacle? x = none) : ¬ s.Hits x err := by
  rw [obstacle?_of_pop? hsteps hpop, List.head?_eq_none_iff] at hobstacle
  rw [← mem_obstacles, hobstacle]
  exact List.not_mem_nil

/-- A search that a step does not change goes on like this. -/
theorem results_of_stuck {r : Except SearchError Examined} {later : List Signals}
    (h : ∀ y ∈ later, s.step y = (r, s)) : s.results later = List.replicate later.length r := by
  induction later with
  | nil => rfl
  | cons y ys ih =>
    have hrest : ∀ z ∈ ys, s.step z = (r, s) := fun z hz => h z (List.mem_cons_of_mem _ hz)
    rw [results, h y List.mem_cons_self, ih hrest, List.length_cons, List.replicate_succ]

/-! ## How far the counters get -/

/-- A step that goes ahead is under every cap, and makes one pop and at most one expansion. -/
theorem counters_step (hfor : s.IsFor g es ev) (hsteps : s.steps = s.stats.popped) (x : Signals) :
    (s.step x).2.stats = s.stats ∧ (s.step x).2.steps = s.steps ∨
    (∀ err, ¬ s.Hits x err) ∧ (s.step x).2.steps = s.steps + 1 ∧
      ((s.step x).2.stats = { s.stats with popped := s.stats.popped + 1 } ∨
        ∃ t expansion, (s.step x).1 = .ok (.expanded t expansion) ∧ t.firstHole?.isSome ∧
          (s.step x).2.stats = { s.enumerator.tally t with popped := s.stats.popped + 1 }) := by
  have houtcome := step_outcome hfor.faithful.numbered x
  generalize (s.step x).1 = result, (s.step x).2 = s' at houtcome ⊢
  cases houtcome with
  | exhausted | hindered => exact .inl ⟨rfl, rfl⟩
  | failed hpop hobstacle | rejected hpop hobstacle | accepted hpop hobstacle =>
    exact .inr ⟨fun _ => not_hits_of_free hsteps hpop hobstacle, rfl,
      .inl (Enumerator.stats_of_pop? hpop)⟩
  | @expanded t e hpop hobstacle hcomplete =>
    obtain ⟨h, hh⟩ := Tree.exists_firstHole?
      (hfor.built (Enumerator.mem_line_of_pop? hpop)).assembled hcomplete
    refine .inr ⟨fun _ => not_hits_of_free hsteps hpop hobstacle, rfl, .inr ⟨t, _, rfl, ?_, ?_⟩⟩
    · rw [hh]
      rfl
    · exact (Enumerator.stats_expand e t).trans (Enumerator.tally_of_pop? hpop t)

/-- The last expansion on the way from one search to another was of a tree that a third search
took. -/
structure LastExpansion (s₀ u : Search) (t : Tree) (s : Search) : Prop where
  reached : s₀.Reaches u
  expanded : ∃ x expansion, (u.step x).1 = .ok (.expanded t expansion) ∧ (u.step x).2.Reaches s
  last : s.stats.expanded = u.stats.expanded + 1
  built : s.stats.nodesBuilt = u.stats.nodesBuilt + u.enumerator.built t

/-- A step that builds nothing leaves the last expansion what it was. -/
theorem LastExpansion.step (h : LastExpansion s₀ u t s)
    (hexpanded : (s.step x).2.stats.expanded = s.stats.expanded)
    (hbuilt : (s.step x).2.stats.nodesBuilt = s.stats.nodesBuilt) :
    LastExpansion s₀ u t (s.step x).2 := by
  obtain ⟨z, expansion, hz, hreaches⟩ := h.expanded
  exact ⟨h.reached, ⟨z, expansion, hz, hreaches.step x⟩, hexpanded.trans h.last,
    hbuilt.trans h.built⟩

/-- The counters of a search that has come from another under its caps. -/
structure Metered (s₀ s : Search) : Prop where
  limits : s.limits = s₀.limits
  steps : s.steps = s.stats.popped
  popped : ∀ {max}, s₀.limits.maxSteps = some max → s.stats.popped ≤ max
  built : ∀ {max}, s₀.limits.maxNodes = some max →
    s.stats.expanded = 0 ∧ s.stats.nodesBuilt ≤ max + 1 ∨
      ∃ u t, LastExpansion s₀ u t s ∧ s.stats.nodesBuilt ≤ max + u.enumerator.built t

theorem metered_of_start (h : start g es limits ev = .ok s) : Metered s s := by
  obtain ⟨-, rfl⟩ := start_eq_ok_iff.1 h
  exact ⟨rfl, rfl, fun _ => Nat.zero_le _, fun _ => .inl ⟨rfl, Nat.le_add_left 1 _⟩⟩

/-- What is said of the nodes built remains true as long as nothing is built. -/
theorem Metered.built_step (h : Metered s₀ s) {max : Nat} (hmax : s₀.limits.maxNodes = some max)
    (hexpanded : (s.step x).2.stats.expanded = s.stats.expanded)
    (hbuilt : (s.step x).2.stats.nodesBuilt = s.stats.nodesBuilt) :
    (s.step x).2.stats.expanded = 0 ∧ (s.step x).2.stats.nodesBuilt ≤ max + 1 ∨
      ∃ u t, LastExpansion s₀ u t (s.step x).2 ∧
        (s.step x).2.stats.nodesBuilt ≤ max + u.enumerator.built t := by
  rcases h.built hmax with ⟨hnone, hle⟩ | ⟨u, t, hlast, hle⟩
  · exact .inl ⟨hexpanded.trans hnone, hbuilt ▸ hle⟩
  · exact .inr ⟨u, t, hlast.step hexpanded hbuilt, hbuilt ▸ hle⟩

theorem Metered.step (h : Metered s₀ s) (hreaches : s₀.Reaches s) (hfor : s.IsFor g es ev)
    (x : Signals) : Metered s₀ (s.step x).2 := by
  have hlimits := (limits_step hfor.faithful.numbered x).trans h.limits
  rcases counters_step hfor h.steps x with ⟨hstats, hsteps⟩ | ⟨hfree, hsteps, hstats⟩
  · refine ⟨hlimits, ?_, ?_, ?_⟩
    · rw [hsteps, hstats, h.steps]
    · rw [hstats]
      exact h.popped
    · intro max hmax
      exact h.built_step hmax (congrArg _ hstats) (congrArg _ hstats)
  · have hpopped : (s.step x).2.stats.popped = s.stats.popped + 1 := by
      rcases hstats with hstats | ⟨t, expansion, -, -, hstats⟩ <;> rw [hstats]
    refine ⟨hlimits, ?_, ?_, ?_⟩
    · rw [hsteps, hpopped, h.steps]
    · intro max hmax
      by_contra hover
      exact hfree (.budget (.steps max)) ⟨h.limits ▸ hmax, by omega⟩
    · intro max hmax
      rcases hstats with hstats | ⟨t, expansion, hresult, hhole, hstats⟩
      · exact h.built_step hmax (by rw [hstats]) (by rw [hstats])
      · have hunder : s.stats.nodesBuilt ≤ max := by
          by_contra hover
          exact hfree (.budget (.nodes max)) ⟨h.limits ▸ hmax, Nat.not_le.1 hover⟩
        have hbuilt : (s.step x).2.stats.nodesBuilt =
            s.stats.nodesBuilt + s.enumerator.built t := by
          rw [hstats]
          rfl
        refine .inr ⟨s, t, ⟨hreaches, ⟨x, expansion, hresult, .refl⟩, ?_, hbuilt⟩, ?_⟩
        · rw [hstats, Enumerator.tally, if_pos hhole]
          rfl
        · rw [hbuilt]
          exact Nat.add_le_add_right hunder _

theorem Reaches.metered (h : s₀.Reaches s) (hstart : start g es limits ev = .ok s₀) :
    Metered s₀ s :=
  h.invariant (metered_of_start hstart) fun x hreaches hu =>
    hu.step hreaches (hreaches.isFor (isFor_of_start hstart)) x

/-! ## The law -/

theorem stuck_of_foremost (hnumbered : s.enumerator.Numbered) (hsteps : s.steps = s.stats.popped)
    (hline : 0 < s.enumerator.worklist.size) (h : s.Foremost x err) {later : List Signals}
    (hlater : ∀ y ∈ later, y.cancelled = x.cancelled ∧ x.elapsed ≤ y.elapsed) :
    { s with enumerator := { s.enumerator with lastPopped := none } }.results later =
      List.replicate later.length (.error err) := by
  refine results_of_stuck ?_
  intro y hy
  obtain ⟨hflag, htime⟩ := hlater y hy
  -- What is in the way does not depend on which tree was popped last.
  have hforemost :
      Foremost { s with enumerator := { s.enumerator with lastPopped := none } } y err :=
    h.later hflag htime
  exact step_of_foremost hnumbered.forget hsteps hline hforemost

/-- **The law of caps.** With trees in line, a search is kept from its next step by a request to
stop or a cap if and only if one is in the way, and then by the foremost. Such a step changes
nothing that is in line and no counter, and unless the request is taken back the search is kept in
the same way for ever. So the pops are never more than the cap on steps, and the nodes built exceed
their cap by no more than the last expansion built, or by the start hole. An empty line is reported
as such whatever is in the way. -/
theorem budget_law (hstart : start g es limits ev = .ok s₀) (hreaches : s₀.Reaches s) :
    s.limits = limits ∧
    (0 < s.enumerator.worklist.size → ∀ x,
      ((∃ err, err.isInterruption = true ∧ (s.step x).1 = .error err) ↔ ∃ err, s.Hits x err) ∧
      ∀ err, err.isInterruption = true → (s.step x).1 = .error err →
        s.Foremost x err ∧
        (s.step x).2 = { s with enumerator := { s.enumerator with lastPopped := none } } ∧
        ∀ later : List Signals, (∀ y ∈ later, y.cancelled = x.cancelled ∧ x.elapsed ≤ y.elapsed) →
          (s.step x).2.results later = List.replicate later.length (.error err)) ∧
    (∀ max, limits.maxSteps = some max → s.stats.popped ≤ max) ∧
    (∀ max, limits.maxNodes = some max →
      s.stats.expanded = 0 ∧ s.stats.nodesBuilt ≤ max + 1 ∨
      ∃ u t, LastExpansion s₀ u t s ∧ s.stats.nodesBuilt ≤ max + u.enumerator.built t) ∧
    (s.enumerator.worklist.size = 0 → ∀ x, s.step x = (.error .exhausted, s)) := by
  have hlimits := limits_of_start hstart
  have hmetered := hreaches.metered hstart
  have hnumbered := (hreaches.isFor (isFor_of_start hstart)).faithful.numbered
  have hsteps := hmetered.steps
  rw [← hlimits]
  refine ⟨hmetered.limits, ?_, fun _ => hmetered.popped, fun _ => hmetered.built, ?_⟩
  · intro hline x
    refine ⟨⟨?_, ?_⟩, ?_⟩
    · rintro ⟨err, hinterruption, herr⟩
      exact ⟨err, (foremost_of_step hnumbered hsteps hinterruption herr).1⟩
    · rintro ⟨err, hhits⟩
      obtain ⟨first, hfirst⟩ := exists_foremost hhits
      refine ⟨first, hfirst.1.isInterruption, ?_⟩
      rw [step_of_foremost hnumbered hsteps hline hfirst]
    · intro err hinterruption herr
      have hforemost := foremost_of_step hnumbered hsteps hinterruption herr
      rw [step_of_foremost hnumbered hsteps hline hforemost]
      exact ⟨hforemost, rfl, fun later => stuck_of_foremost hnumbered hsteps hline hforemost⟩
  · intro hempty x
    refine step_of_exhausted (Enumerator.pop?_eq_none_iff.2 ?_)
    rw [← List.length_eq_zero_iff, Enumerator.length_line, hempty]

/-- One expansion builds more nodes than the cap allows. After it the queue is too long and the time
is over as well, but it is the nodes that are reported. -/
theorem budget_law_nodes : ∃ s₀ s : Search,
    start .arithmetic [.ofValues 5 0 0 5] ⟨some 5, some 2, some 2, some 3⟩ .interpreter = .ok s₀ ∧
    s₀.Reaches s ∧ 0 < s.enumerator.worklist.size ∧
    s.Hits ⟨false, 9⟩ (.budget (.nodes 5)) ∧ s.Hits ⟨false, 9⟩ (.budget (.queue 2)) ∧
    s.Hits ⟨false, 9⟩ (.budget (.time 3)) ∧
    (s.step ⟨false, 9⟩).1 = .error (.budget (.nodes 5)) ∧
    (s.step ⟨false, 9⟩).2.results [⟨false, 9⟩, ⟨false, 20⟩] =
      [.error (.budget (.nodes 5)), .error (.budget (.nodes 5))] ∧
    s.stats.popped ≤ 2 ∧
    ∃ u t, LastExpansion s₀ u t s ∧ s.stats.nodesBuilt ≤ 5 + u.enumerator.built t := by
  let es : List Example := [.ofValues 5 0 0 5]
  let s₀ : Search :=
    ⟨.new .arithmetic (.ofExamples es), es, .interpreter, ⟨some 5, some 2, some 2, some 3⟩, 0⟩
  let s := (s₀.step .quiet).2
  have hstart : start .arithmetic es ⟨some 5, some 2, some 2, some 3⟩ .interpreter = .ok s₀ := rfl
  have hreaches : s₀.Reaches s := .step .quiet .refl
  have hline : 0 < s.enumerator.worklist.size := by decide +kernel
  have hnodes : s.Hits ⟨false, 9⟩ (.budget (.nodes 5)) := ⟨rfl, by decide +kernel⟩
  have hresult : (s.step ⟨false, 9⟩).1 = .error (.budget (.nodes 5)) := by decide +kernel
  have hexpanded : s.stats.expanded ≠ 0 := by decide +kernel
  obtain ⟨-, hlaw, hsteps, hbuilt, -⟩ := budget_law hstart hreaches
  obtain ⟨-, -, hstuck⟩ := (hlaw hline ⟨false, 9⟩).2 _ rfl hresult
  refine ⟨s₀, s, hstart, hreaches, hline, hnodes, ⟨rfl, by decide +kernel⟩, ⟨rfl, by decide⟩,
    hresult, hstuck _ (by decide), hsteps 2 rfl, ?_⟩
  exact (hbuilt 5 rfl).resolve_left fun h => hexpanded h.1

end Search

end Synthesis
