import Synthesis.Proofs.Enumerator.Line

/-!
# What an enumerator counts

The counters have no part in what is enumerated, but caps are set on them, so that a counter that
moves at the wrong time ends a search too early or too late. A pop counts itself and nothing else.
An expansion counts whatever it did to the line, and what it did to get there,

> **and it counts no pop** (`expand_snd`).

The nodes built are those of all candidates: one that is dropped was built before its bound could be
looked at.
-/

set_option autoImplicit false

namespace Synthesis

namespace Enumerator

variable {e e' : Enumerator} {t : Tree}

/-- How many nodes an expansion of the tree builds. -/
def built (e : Enumerator) (t : Tree) : Nat :=
  match t.firstHole? with
  | none => 0
  | some h => Candidate.totalBuilt (e.candidates t h)

/-- The counters after an expansion of the tree. -/
def tally (e : Enumerator) (t : Tree) : Stats where
  nodesBuilt := e.stats.nodesBuilt + e.built t
  enqueued := e.stats.enqueued + (e.kept t).length
  pruned := e.stats.pruned + ((t.growths e.grammar e.bounds).length - (e.kept t).length)
  popped := e.stats.popped
  expanded := e.stats.expanded + if t.firstHole?.isSome then 1 else 0

theorem expand_snd (e : Enumerator) (t : Tree) :
    (e.expand t).2 = { (e.kept t).foldl push e with stats := e.tally t } := by
  cases hh : t.firstHole? with
  | none => simp [expand, tally, built, kept, Tree.growths, hh]
  | some h =>
    have hfold : ((e.candidates t h).filter e.admits).foldl (fun e c => e.push c.tree) e =
        (e.kept t).foldl push e := by
      rw [← kept_eq hh, List.foldl_map]
    have hkept : ((e.candidates t h).filter e.admits).length = (e.kept t).length := by
      rw [← kept_eq hh, List.length_map]
    have hall : (e.candidates t h).length = (t.growths e.grammar e.bounds).length := by
      rw [← candidates_map_tree hh, List.length_map]
    have hstats : ((e.kept t).foldl push e).stats =
        { e.stats with enqueued := e.stats.enqueued + (e.kept t).length } := by
      rw [foldl_push_eq]
    simp only [expand_of_firstHole? hh, settle, hfold, hkept, hall, hstats]
    simp only [tally, built, hh, Option.isSome_some, if_true]

theorem stats_expand (e : Enumerator) (t : Tree) : (e.expand t).2.stats = e.tally t := by
  rw [expand_snd]

theorem stats_of_pop? (hpop : e.pop? = some (t, e')) :
    e'.stats = { e.stats with popped := e.stats.popped + 1 } := by
  obtain ⟨place, -, rfl⟩ := pop?_eq_some_iff.1 hpop
  rfl

/-- A pop has no part in what expansions build. -/
theorem tally_of_pop? (hpop : e.pop? = some (t, e')) (u : Tree) :
    e'.tally u = { e.tally u with popped := e.stats.popped + 1 } := by
  obtain ⟨place, -, rfl⟩ := pop?_eq_some_iff.1 hpop
  rfl

end Enumerator

end Synthesis
