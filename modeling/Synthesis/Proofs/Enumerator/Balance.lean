import Mathlib.Algebra.BigOperators.Group.List.Basic
import Synthesis.Proofs.Enumerator.Expansion
import Synthesis.Proofs.Enumerator.Undo

/-!
# The counters balance

The counters are moved by different requests, and one of them is moved back: putting a tree back
takes one from the pops. Still they tell one story. Whoever was put into line is there or was taken
out, whoever was put into line was kept by an expansion or is the start hole, and what was kept or
dropped was built before. `Balanced` says so, relative to what the expansions reported, and

> **every request keeps the balance** (`Balanced.perform`).

The count of pops cannot fall below zero. To put a tree back, one must have been popped since the
last time, and that pop is still counted.
-/

set_option autoImplicit false

namespace Synthesis

namespace Enumerator

variable {g : Grammar} {b : Bounds} {e e' e₁ : Enumerator} {t : Tree} {r : Request}
  {requests before later : List Request} {reports : List Expansion}

/-! ## What expansions reported -/

/-- The report in an answer, if there is one. -/
def Answer.expansion? : Answer → Option Expansion
  | .expanded report => some report
  | .popped _ | .putBack | .refused => none

/-- What the expansions among the requests report, in order. -/
def expansions (e : Enumerator) (requests : List Request) : List Expansion :=
  (e.answers requests).filterMap Answer.expansion?

theorem expansions_cons (hr : e.perform? r = some e') :
    e.expansions (r :: requests) = (e.answer r).expansion?.toList ++ e'.expansions requests := by
  have hnext : e.next r = e' := by rw [next, hr, Option.getD_some]
  rw [expansions, answers, List.filterMap_cons, hnext]
  cases (e.answer r).expansion? <;> rfl

theorem after?_append (hbefore : e.after? before = some e₁) (later : List Request) :
    e.after? (before ++ later) = e₁.after? later := by
  induction before generalizing e with
  | nil => rw [Option.some.inj hbefore, List.nil_append]
  | cons r rs ih =>
    obtain ⟨e', hr, hrs⟩ := Option.bind_eq_some_iff.1 hbefore
    rw [List.cons_append, after?, hr, Option.bind_some, ih hrs]

theorem after?_singleton (e : Enumerator) (r : Request) : e.after? [r] = e.perform? r :=
  Option.bind_fun_some _

theorem after?_pop_cons (hpop : e.pop? = some (t, e')) (later : List Request) :
    e.after? (.pop :: later) = e'.after? later := by
  rw [after?, perform?, hpop]
  rfl

/-! ## The balance -/

/-- Each candidate has a node that was built for it. -/
theorem length_growths_le_built (e : Enumerator) (t : Tree) :
    (t.growths e.grammar e.bounds).length ≤ e.built t := by
  cases hh : t.firstHole? with
  | none => simp [Tree.growths, hh]
  | some h =>
    rw [length_growths hh, built_eq hh, ← List.length_map fun op => 1 + op.arity + h.path.length]
    refine List.length_le_sum_of_one_le _ ?_
    simp only [List.forall_mem_map]
    omega

/-- The counters agree with the line, with each other and with what the expansions reported. -/
structure Balanced (e : Enumerator) (reports : List Expansion) : Prop where
  line : e.worklist.size + e.stats.popped = e.stats.enqueued
  enqueued : e.stats.enqueued = 1 + (reports.map (·.kept)).sum
  pruned : e.stats.pruned = (reports.map (·.pruned)).sum
  built : e.stats.enqueued + e.stats.pruned ≤ e.stats.nodesBuilt
  popped : e.lastPopped.isSome → 1 ≤ e.stats.popped

theorem balanced_new (g : Grammar) (b : Bounds) : (new g b).Balanced [] where
  line := by
    rw [← length_line, line_new]
    rfl
  enqueued := rfl
  pruned := rfl
  built := Nat.le_refl 1
  popped h := absurd h (by simp [new, push])

theorem Balanced.pop (h : e.Balanced reports) (hpop : e.pop? = some (t, e')) :
    e'.Balanced reports := by
  have hline : e.worklist.size = e'.worklist.size + 1 := by
    rw [← length_line, ← length_line, line_of_pop? hpop, List.length_cons]
  have hstats := stats_of_pop? hpop
  constructor <;> rw [hstats]
  · have hbalance := h.line
    show e'.worklist.size + (e.stats.popped + 1) = e.stats.enqueued
    omega
  · exact h.enqueued
  · exact h.pruned
  · exact h.built
  · exact fun _ => Nat.le_add_left 1 _

/-- The pop that is taken back has been counted. -/
theorem Balanced.popped_of_unpop? (h : e.Balanced reports) (hunpop : e.unpop? t = some e') :
    1 ≤ e.stats.popped ∧ e'.stats = { e.stats with popped := e.stats.popped - 1 } := by
  obtain ⟨number, hlast, rfl⟩ := Option.map_eq_some_iff.1 hunpop
  exact ⟨h.popped (Option.isSome_iff_exists.2 ⟨number, hlast⟩), rfl⟩

theorem Balanced.unpop (hnumbered : e.Numbered) (h : e.Balanced reports)
    (hunpop : e.unpop? t = some e') : e'.Balanced reports := by
  obtain ⟨hpopped, hstats⟩ := h.popped_of_unpop? hunpop
  have hsize := size_of_unpop? hnumbered hunpop
  have hlast : e'.lastPopped = none := by
    obtain ⟨number, -, rfl⟩ := Option.map_eq_some_iff.1 hunpop
    rfl
  constructor <;> rw [hstats]
  · have hbalance := h.line
    show e'.worklist.size + (e.stats.popped - 1) = e.stats.enqueued
    omega
  · exact h.enqueued
  · exact h.pruned
  · exact h.built
  · exact fun hsome => absurd hsome (by simp [hlast])

theorem Balanced.expand (hnumbered : e.Numbered) (h : e.Balanced reports) (t : Tree) :
    (e.expand t).2.Balanced (reports ++ [(e.expand t).1]) := by
  have hlast : (e.expand t).2.lastPopped = e.lastPopped := by
    rw [expand_snd, foldl_push_eq]
  have hkept : (e.kept t).length ≤ (t.growths e.grammar e.bounds).length :=
    List.length_filter_le _ _
  constructor <;> simp only [stats_expand, tally, expand_fst, List.map_append, List.sum_append,
    List.map_singleton, List.sum_singleton]
  · rw [size_expand hnumbered, Nat.add_right_comm, h.line]
  · rw [h.enqueued, Nat.add_assoc]
  · rw [h.pruned]
  · have hall := length_growths_le_built e t
    have hbuilt := h.built
    omega
  · rw [hlast]
    exact h.popped

/-- **Every request keeps the balance.** -/
theorem Balanced.perform (hnumbered : e.Numbered) (h : e.Balanced reports)
    (hr : e.perform? r = some e') :
    e'.Balanced (reports ++ (e.answer r).expansion?.toList) := by
  cases r with
  | pop =>
    have hsame : reports ++ (e.answer .pop).expansion?.toList = reports := List.append_nil _
    obtain rfl := Option.some.inj hr
    rw [hsame]
    cases hpop : e.pop? with
    | none => exact h
    | some x => exact h.pop hpop
  | unpop t =>
    have hunpop : e.unpop? t = some e' := hr
    have hsame : reports ++ (e.answer (.unpop t)).expansion?.toList = reports := by
      simp [answer, hunpop, Answer.expansion?]
    rw [hsame]
    exact h.unpop hnumbered hunpop
  | expand t => exact Option.some.inj hr ▸ h.expand hnumbered t

/-- However an enumerator is used, it stays in balance. -/
theorem Balanced.after (hnumbered : e.Numbered) (h : e.Balanced reports)
    (hrequests : e.after? requests = some e') :
    e'.Balanced (reports ++ e.expansions requests) := by
  induction requests generalizing e reports with
  | nil =>
    obtain rfl := Option.some.inj hrequests
    exact (List.append_nil reports).symm ▸ h
  | cons r rs ih =>
    obtain ⟨e₁, hr, hrs⟩ := Option.bind_eq_some_iff.1 hrequests
    rw [expansions_cons hr, ← List.append_assoc]
    exact ih (hnumbered.perform hr) (h.perform hnumbered hr) hrs

theorem balanced_of_after? (hrequests : (new g b).after? requests = some e) :
    e.Balanced ((new g b).expansions requests) :=
  (balanced_new g b).after (numbered_new g b) hrequests

end Enumerator

end Synthesis
