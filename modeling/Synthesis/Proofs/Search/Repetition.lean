import Synthesis.Proofs.Grammar.Completion
import Synthesis.Proofs.Search.Steps
import Synthesis.Proofs.Tree.Apart

/-!
# Nothing is looked at twice

The trees in line divide what is still to come among themselves: no tree, finished or not, is within
two of them. What was looked at stays behind. It is either apart from a tree in line, or that tree
has been grown from it and is larger. `Unrepeated` is the invariant, stated about two lists of trees
and nothing else, and there is one thing that can happen to them:

> **the head of the line moves to the past, and growths of it that are apart from each other join
> the line** (`Unrepeated.look`).

A program has no growths, a pruned growth is missing, and a tree put back was never gone; none of
this needs a case of its own.
-/

set_option autoImplicit false

namespace Synthesis

/-! ## Left behind -/

namespace Tree

variable {t u v : Tree}

/-- The first tree is not met again in the second or in what the second becomes. -/
def Behind (t u : Tree) : Prop := t.Apart u ∨ t.Covers u ∧ t.filled < u.filled

theorem Behind.grow (h : t.Behind u) (hu : u.Covers v) : t.Behind v := by
  rcases h with hapart | ⟨hcovers, hlt⟩
  · exact .inl (hapart.grow (.refl t) hu)
  · exact .inr ⟨hcovers.trans hu, Nat.lt_of_lt_of_le hlt hu.filled_le⟩

/-- The symbols of the two trees differ somewhere. -/
theorem Behind.annotate_ne (h : t.Behind u) (b : Bounds) : t.annotate b ≠ u.annotate b := by
  intro heq
  rcases h with hapart | ⟨-, hlt⟩
  · have ht := covers_annotate b t
    rw [heq] at ht
    exact hapart _ ht (covers_annotate b u)
  · have hfilled := congrArg filled heq
    rw [filled_annotate, filled_annotate] at hfilled
    exact absurd hfilled (Nat.ne_of_lt hlt)

end Tree

/-! ## The invariant -/

/-- Nothing in the past is repeated, in the past itself or in anything within the line. -/
structure Unrepeated (past line : List Tree) : Prop where
  apart : line.Pairwise Tree.Apart
  behind : ∀ t ∈ past, ∀ u ∈ line, t.Behind u
  distinct : past.Pairwise fun t u => ∀ b, t.annotate b ≠ u.annotate b

namespace Unrepeated

variable {past line line' us : List Tree} {t : Tree}

theorem tail (h : Unrepeated past (t :: line)) : Unrepeated past line where
  apart := h.apart.of_cons
  behind u hu v hv := h.behind u hu v (List.mem_cons_of_mem _ hv)
  distinct := h.distinct

/-- The head of the line is looked at, and some of its growths join the line. -/
theorem look (h : Unrepeated past (t :: line)) (hus : us.Pairwise Tree.Apart)
    (hgrown : ∀ u ∈ us, t.Covers u ∧ t.filled < u.filled) (hperm : line'.Perm (us ++ line)) :
    Unrepeated (past ++ [t]) line' where
  apart := by
    obtain ⟨hhead, htail⟩ := List.pairwise_cons.1 h.apart
    refine (hperm.pairwise_iff Tree.Apart.symm).2 (List.pairwise_append.2 ⟨hus, htail, ?_⟩)
    intro u hu v hv
    exact (hhead v hv).grow (hgrown u hu).1 (.refl v)
  behind := by
    intro p hp u hu
    rcases List.mem_append.1 hp with hp | hp <;>
      rcases List.mem_append.1 (hperm.mem_iff.1 hu) with hu | hu
    · exact (h.behind p hp t List.mem_cons_self).grow (hgrown u hu).1
    · exact h.behind p hp u (List.mem_cons_of_mem _ hu)
    · obtain rfl := List.mem_singleton.1 hp
      exact .inr (hgrown u hu)
    · obtain rfl := List.mem_singleton.1 hp
      exact .inl (List.rel_of_pairwise_cons h.apart hu)
  distinct := by
    refine List.pairwise_append.2 ⟨h.distinct, List.pairwise_singleton _ _, ?_⟩
    intro p hp u hu
    obtain rfl := List.mem_singleton.1 hu
    exact (h.behind p hp u List.mem_cons_self).annotate_ne

end Unrepeated

/-- The tree that was looked at. -/
def Examined.tree : Examined → Tree
  | expanded t _ => t
  | rejected p | accepted p => p.tree

/-- The tree that a step looked at, unless it failed. -/
def lookedAt? : Except SearchError Examined → Option Tree
  | .ok examined => some examined.tree
  | .error _ => none

namespace Search

variable {g : Grammar} {es : List Example} {ev : Evaluator} {limits : Limits} {s : Search}
  {past : List Tree}

/-- The trees that successful steps looked at, in order. -/
def examined (s : Search) (history : List Signals) : List Tree :=
  (s.results history).filterMap lookedAt?

theorem examined_cons (s : Search) (x : Signals) (xs : List Signals) :
    s.examined (x :: xs) = (lookedAt? (s.step x).1).toList ++ (s.step x).2.examined xs := by
  unfold examined
  rw [results, List.filterMap_cons]
  cases lookedAt? (s.step x).1 <;> rfl

theorem examined_append (s : Search) (before later : List Signals) :
    s.examined (before ++ later) = s.examined before ++ (s.after before).examined later := by
  unfold examined
  rw [results_append, List.filterMap_append]

theorem unrepeated_of_start (h : start g es limits ev = .ok s) :
    Unrepeated [] s.enumerator.line := by
  rw [line_of_start h]
  exact ⟨List.pairwise_singleton _ _, by simp, List.Pairwise.nil⟩

theorem unrepeated_step (hfor : s.IsFor g es ev) (hnodup : ∀ c, (g.operators c).Nodup)
    (h : Unrepeated past s.enumerator.line) (x : Signals) :
    Unrepeated (past ++ (lookedAt? (s.step x).1).toList) (s.step x).2.enumerator.line := by
  have houtcome := step_outcome hfor.faithful.numbered x
  -- A program that was tried has no growths.
  have htried {p : Program} {e : Enumerator} (hpop : s.enumerator.pop? = some (p.tree, e)) :
      Unrepeated (past ++ [p.tree]) e.line := by
    rw [Enumerator.line_of_pop? hpop] at h
    exact h.look List.Pairwise.nil (by simp) (.refl _)
  generalize (s.step x).1 = result, (s.step x).2 = s' at houtcome
  cases houtcome with
  | exhausted | hindered =>
    simp only [lookedAt?, Option.toList_none, List.append_nil]
    exact h
  | @expanded t e hpop hobstacle hcomplete =>
    rw [Enumerator.line_of_pop? hpop] at h
    rw [← hfor.grammar, ← (Enumerator.setting_of_pop? hpop).1] at hnodup
    have hline := Enumerator.line_expand (hfor.faithful.numbered.pop hpop) t
    have hapart : (e.kept t).Pairwise Tree.Apart :=
      (Tree.pairwise_apart_growths hnodup _ t).filter _
    refine h.look hapart ?_ ?_
    · intro u hu
      have hu := (List.mem_filter.1 hu).1
      rw [Tree.filled_of_mem_growths hu]
      exact ⟨Tree.covers_of_mem_growths hu, Nat.lt_succ_self _⟩
    · rw [hline]
      exact Tree.foldl_enqueue_perm _ _
  | failed hpop =>
    rw [Enumerator.line_of_pop? hpop] at h
    simp only [lookedAt?, Option.toList_none, List.append_nil]
    exact h.tail
  | rejected hpop => exact htried hpop
  | accepted hpop => exact htried hpop

theorem unrepeated_after (hfor : s.IsFor g es ev) (hnodup : ∀ c, (g.operators c).Nodup)
    (h : Unrepeated past s.enumerator.line) (history : List Signals) :
    Unrepeated (past ++ s.examined history) (s.after history).enumerator.line := by
  induction history generalizing s past with
  | nil => simpa [examined, results, after] using h
  | cons x xs ih =>
    have hstep := ih (hfor.step x) (unrepeated_step hfor hnodup h x)
    rw [examined_cons, ← List.append_assoc]
    exact hstep

/-- **Nothing is enumerated twice.** In a grammar that lists no operator twice, no two steps of a
search look at trees with the same symbols, no program is a completion of two trees in line, and
none that was looked at is a completion of any; a program that was rejected does not come back. -/
theorem nothing_enumerated_twice (hstart : start g es limits ev = .ok s)
    (hnodup : ∀ c, (g.operators c).Nodup) (history : List Signals) :
    (∀ b, ((s.examined history).map (Tree.annotate b)).Nodup) ∧
    ((s.after history).enumerator.line.Pairwise fun t u =>
      ∀ q : Program, ¬ (g.Completes t q.tree ∧ g.Completes u q.tree)) ∧
    (∀ t ∈ (s.after history).enumerator.line, ∀ q : Program, g.Completes t q.tree →
      ∀ u ∈ s.examined history, ∀ b, u.annotate b ≠ q.tree.annotate b) ∧
    (∀ p : Program, .ok (.rejected p) ∈ s.results history → ∀ later : List Signals,
      ∀ u ∈ (s.after history).examined later, ∀ b, u.annotate b ≠ p.tree.annotate b) := by
  have hall (history : List Signals) :
      Unrepeated (s.examined history) (s.after history).enumerator.line :=
    unrepeated_after (isFor_of_start hstart) hnodup (unrepeated_of_start hstart) history
  refine ⟨?_, ?_, ?_, ?_⟩
  · intro b
    exact List.pairwise_map.2 ((hall history).distinct.imp fun hne => hne b)
  · refine (hall history).apart.imp ?_
    rintro t u hapart q ⟨ht, hu⟩
    exact hapart q.tree ht.covers hu.covers
  · intro t ht q hq u hu
    exact (((hall history).behind u hu t ht).grow hq.covers).annotate_ne
  · intro p hp later u hu b heq
    have hdistinct := (hall (history ++ later)).distinct
    rw [examined_append] at hdistinct
    have hmem : p.tree ∈ s.examined history := List.mem_filterMap.2 ⟨_, hp, rfl⟩
    exact (List.pairwise_append.1 hdistinct).2.2 _ hmem u hu b heq.symm

/-- Arithmetic lists no operator twice. A constant that was rejected does not come back, and no
completion of the sum in line was looked at. -/
theorem nothing_enumerated_twice_constant : ∃ (s : Search) (t : Tree) (q p : Program),
    start .arithmetic [.ofValues 0 0 0 1, .ofValues 1 0 0 2] .none .interpreter = .ok s ∧
    (∀ c, (Grammar.arithmetic.operators c).Nodup) ∧
    (∀ b, ((s.examined [.quiet, ⟨true, 0⟩, .quiet]).map (Tree.annotate b)).Nodup) ∧
    ((s.after [.quiet, ⟨true, 0⟩, .quiet]).enumerator.line.Pairwise fun t u =>
      ∀ q : Program, ¬ (Grammar.arithmetic.Completes t q.tree ∧
        Grammar.arithmetic.Completes u q.tree)) ∧
    t.text = "Add(E, E)" ∧ q.text = "Add(x, 1)" ∧ p.text = "2" ∧
    t ∈ (s.after [.quiet, ⟨true, 0⟩, .quiet]).enumerator.line ∧
    Grammar.arithmetic.Completes t q.tree ∧
    (∀ u ∈ s.examined [.quiet, ⟨true, 0⟩, .quiet], ∀ b, u.annotate b ≠ q.tree.annotate b) ∧
    .ok (.rejected p) ∈ s.results [.quiet, ⟨true, 0⟩, .quiet] ∧
    ∀ later, ∀ u ∈ (s.after [.quiet, ⟨true, 0⟩, .quiet]).examined later,
      ∀ b, u.annotate b ≠ p.tree.annotate b := by
  let es : List Example := [.ofValues 0 0 0 1, .ofValues 1 0 0 2]
  let b := Bounds.ofExamples es
  let s : Search := ⟨.new .arithmetic b, es, .interpreter, .none, 0⟩
  let history : List Signals := [.quiet, ⟨true, 0⟩, .quiet]
  let t : Tree := .mkBinary b .add (.mkHole b .numeric) (.mkHole b .numeric)
  let q : Program := ⟨.mkBinary b .add (.mkLeaf b (.var .x)) (.mkLeaf b (.lit .one)), rfl⟩
  let p : Program := ⟨.mkLeaf b (.lit .two), rfl⟩
  have hnodup : ∀ c, (Grammar.arithmetic.operators c).Nodup := by
    intro c
    cases c <;> decide
  have ht : t ∈ (s.after history).enumerator.line := by decide +kernel
  have hq : Grammar.arithmetic.Completes t q.tree :=
    .binary .add _ _ (.hole _ (.leaf _ (by decide)) rfl) (.hole _ (.leaf _ (by decide)) rfl)
  have hp : .ok (.rejected p) ∈ s.results history := by decide +kernel
  have hstart : start .arithmetic es .none .interpreter = .ok s := rfl
  obtain ⟨hexamined, hapart, hcompletions, hrejected⟩ :=
    nothing_enumerated_twice hstart hnodup history
  exact ⟨s, t, q, p, hstart, hnodup, hexamined, hapart, by decide +kernel, by decide +kernel,
    by decide +kernel, ht, hq, hcompletions t ht q hq, hp, hrejected p hp⟩

end Search

end Synthesis
