import Synthesis.Proofs.Enumerator.Counting
import Synthesis.Proofs.Enumerator.Queue

/-!
# Putting back undoes popping

A caller has to pop a tree to see it, and may then put it back. That should leave no trace, and not
only if it happens at once: in between, other trees may have been expanded, and what grew from them
has joined the line under numbers of its own.

> **Popped and put back is as good as never popped** (`unpop_undoes_pop`).

It holds because an expansion looks at the grammar, the bounds and the next number, and at nothing
that a pop changes. An enumerator from which a tree was withdrawn expands as it would have with the
tree, and remains the enumerator from which that tree was withdrawn (`expand_withdraw`).

One thing is not as before: nobody can put back a tree again. A caller notices only by trying to do
so, and not even then if a tree was popped first, because the pop overwrites what was forgotten
(`answers_forget`).
-/

set_option autoImplicit false

namespace Synthesis

namespace Enumerator

variable {g : Grammar} {b : Bounds} {e e' : Enumerator} {t : Tree} {place : Place}
  {before requests : List Request}

/-! ## Answers -/

/-- What a caller gets to see of a request. -/
inductive Answer where
  | popped (tree : Option Tree)
  | putBack
  | refused
  | expanded (expansion : Expansion)
  deriving DecidableEq

/-- What is answered to a request. -/
def answer (e : Enumerator) : Request → Answer
  | .pop => .popped (e.pop?.map (·.1))
  | .unpop t => if (e.unpop? t).isSome then .putBack else .refused
  | .expand t => .expanded (e.expand t).1

/-- The enumerator after a request, which changes nothing if it is refused. -/
def next (e : Enumerator) (r : Request) : Enumerator := (e.perform? r).getD e

/-- The enumerator after one request after the other. -/
def after (e : Enumerator) (requests : List Request) : Enumerator := requests.foldl next e

/-- What is answered to one request after the other. -/
def answers (e : Enumerator) : List Request → List Answer
  | [] => []
  | r :: rs => e.answer r :: (e.next r).answers rs

/-- Whoever puts a tree back has been handed one before. -/
def PopsFirst (e : Enumerator) (requests : List Request) : Prop :=
  ∀ earlier t later, requests = earlier ++ .unpop t :: later →
    ∃ u, .popped (some u) ∈ e.answers earlier

theorem next_pop_of_none (h : e.pop? = none) : e.next .pop = e := by
  simp only [next, perform?, h, Option.map_none, Option.getD_none, Option.getD_some]

theorem next_pop_of_some (h : e.pop? = some (t, e')) : e.next .pop = e' := by
  simp only [next, perform?, h, Option.map_some, Option.getD_some]

theorem next_unpop_of_some (h : e.unpop? t = some e') : e.next (.unpop t) = e' := by
  simp only [next, perform?, h, Option.getD_some]

theorem next_expand (e : Enumerator) (t : Tree) : e.next (.expand t) = (e.expand t).2 := rfl

theorem after_cons (e : Enumerator) (r : Request) (requests : List Request) :
    e.after (r :: requests) = (e.next r).after requests := rfl

theorem after_append (e : Enumerator) (earlier later : List Request) :
    e.after (earlier ++ later) = (e.after earlier).after later :=
  List.foldl_append

theorem answers_append (e : Enumerator) (earlier later : List Request) :
    e.answers (earlier ++ later) = e.answers earlier ++ (e.after earlier).answers later := by
  induction earlier generalizing e with
  | nil => rfl
  | cons r rs ih => exact congrArg (_ :: ·) (ih _)

/-! ## Expanding around a gap -/

theorem push_withdraw (h : place.number < e.nextNumber) (t : Tree) :
    (e.withdraw place).push t = (e.push t).withdraw place := by
  have hne : place ≠ .ofTree t e.nextNumber := by
    rintro rfl
    exact Nat.lt_irrefl _ h
  simp only [push, withdraw, Worklist.insert_erase_comm hne]

theorem foldl_push_withdraw (h : place.number < e.nextNumber) (ts : List Tree) :
    ts.foldl push (e.withdraw place) = (ts.foldl push e).withdraw place := by
  induction ts generalizing e with
  | nil => rfl
  | cons t ts ih =>
    have hlt : place.number < (e.push t).nextNumber := Nat.lt_succ_of_lt h
    rw [List.foldl_cons, push_withdraw h, ih hlt, List.foldl_cons]

/-- **An expansion does not notice that a tree is gone.** -/
theorem expand_withdraw (h : place.number < e.nextNumber) (t : Tree) :
    (e.withdraw place).expand t = ((e.expand t).1, (e.expand t).2.withdraw place) := by
  have hreport : ((e.withdraw place).expand t).1 = (e.expand t).1 := by
    rw [expand_fst, expand_fst]
    rfl
  have hleft : ((e.withdraw place).expand t).2 = (e.expand t).2.withdraw place := by
    have hkept : (e.withdraw place).kept t = e.kept t := rfl
    rw [expand_snd, expand_snd, hkept, foldl_push_withdraw h]
    rfl
  exact Prod.ext hreport hleft

/-- Expansions keep the gap open, and who was there is still there. -/
theorem after_expand_withdraw (h : e.Numbered) (hget : e.worklist.get? place = some t)
    (ts : List Tree) :
    (e.withdraw place).answers (ts.map .expand) = e.answers (ts.map .expand) ∧
    (e.withdraw place).after (ts.map .expand) = (e.after (ts.map .expand)).withdraw place ∧
    (e.after (ts.map .expand)).Numbered ∧
    (e.after (ts.map .expand)).worklist.get? place = some t := by
  induction ts generalizing e with
  | nil => exact ⟨rfl, rfl, h, hget⟩
  | cons u ts ih =>
    have hstep := expand_withdraw (h.lt_next hget) u
    have hget' : (e.expand u).2.worklist.get? place = some t := by
      rw [← Worklist.mem_toList, h.mem_toList_expand u]
      exact .inr (Worklist.mem_toList.2 hget)
    obtain ⟨hanswers, hafter, hrest⟩ := ih (h.expand u) hget'
    refine ⟨?_, ?_, hrest⟩
    · rw [List.map_cons, answers, answers, next_expand, next_expand, answer, answer, hstep,
        hanswers]
    · rw [List.map_cons, after_cons, after_cons, next_expand, next_expand, hstep, hafter]

/-! ## What is forgotten -/

theorem foldl_push_forget (e : Enumerator) (last : Option Nat) (ts : List Tree) :
    ts.foldl push { e with lastPopped := last } =
      { ts.foldl push e with lastPopped := last } := by
  induction ts generalizing e with
  | nil => rfl
  | cons t ts ih => exact ih (e.push t)

theorem expand_forget (e : Enumerator) (last : Option Nat) (t : Tree) :
    { e with lastPopped := last }.expand t =
      ((e.expand t).1, { (e.expand t).2 with lastPopped := last }) := by
  refine Prod.ext ?_ ?_
  · rw [expand_fst, expand_fst]
    rfl
  · have hkept : { e with lastPopped := last }.kept t = e.kept t := rfl
    rw [expand_snd, expand_snd, hkept, foldl_push_forget]
    rfl

theorem PopsFirst.tail {r : Request} (h : e.PopsFirst (r :: requests))
    (hnone : ∀ u, e.answer r ≠ .popped (some u)) : (e.next r).PopsFirst requests := by
  intro earlier t later heq
  obtain ⟨u, hu⟩ := h (r :: earlier) t later (congrArg (r :: ·) heq)
  rcases List.mem_cons.1 hu with hu | hu
  · exact absurd hu.symm (hnone u)
  · exact ⟨u, hu⟩

theorem popsFirst_pop_cons (h : e.answer .pop = .popped (some t)) (requests : List Request) :
    e.PopsFirst (.pop :: requests) := by
  intro earlier u later heq
  cases earlier with
  | nil => exact absurd heq (by simp)
  | cons r earlier =>
    obtain ⟨rfl, -⟩ := List.cons.inj heq
    exact ⟨t, List.mem_cons.2 (.inl h.symm)⟩

/-- Which tree was popped last does not matter to a caller who pops before putting back. -/
theorem answers_forget (h : e.PopsFirst requests) (last : Option Nat) :
    { e with lastPopped := last }.answers requests = e.answers requests ∧
      ∃ last', { e with lastPopped := last }.after requests =
        { e.after requests with lastPopped := last' } := by
  induction requests generalizing e with
  | nil => exact ⟨rfl, last, rfl⟩
  | cons r rs ih =>
    rw [answers, answers, after_cons, after_cons]
    cases r with
    | pop =>
      have hanswer : { e with lastPopped := last }.answer .pop = e.answer .pop := rfl
      cases hpop : e.pop? with
      | none =>
        have hpop' : { e with lastPopped := last }.pop? = none := hpop
        have htail := h.tail (by simp [answer, hpop])
        rw [next_pop_of_none hpop] at htail ⊢
        obtain ⟨hanswers, hafter⟩ := ih htail
        rw [hanswer, next_pop_of_none hpop', hanswers]
        exact ⟨rfl, hafter⟩
      | some x =>
        -- From here on the two are the same.
        have hpop' : { e with lastPopped := last }.pop? = some x := hpop
        rw [hanswer, next_pop_of_some hpop, next_pop_of_some hpop']
        exact ⟨rfl, _, rfl⟩
    | unpop t =>
      obtain ⟨u, hu⟩ := h [] t rs rfl
      exact absurd hu (by simp [answers])
    | expand t =>
      have hstep := expand_forget e last t
      obtain ⟨hanswers, hafter⟩ := ih (h.tail (by simp [answer]))
      rw [next_expand] at hanswers hafter
      rw [next_expand, next_expand, answer, answer, hstep, hanswers]
      exact ⟨rfl, hafter⟩

/-! ## Popped and put back -/

/-- **Putting back undoes popping.** A caller of an enumerator that was used in any way pops a tree,
expands any others and puts the tree back. The tree is accepted, the expansions were reported as if
nothing had been popped, and the enumerator is the one that they alone would have led to, its line,
its next number and its counters included; only which tree was popped last is forgotten. Whatever is
asked then is answered as it would have been, as long as no tree is put back before one was handed
out. -/
theorem unpop_undoes_pop (h : (new g b).after? before = some e) (hline : 0 < e.worklist.size)
    (ts : List Tree) : ∃ t undone expanded,
    undone = e.after (.pop :: ts.map .expand ++ [.unpop t]) ∧
    expanded = e.after (ts.map .expand) ∧
    e.answers (.pop :: ts.map .expand ++ [.unpop t]) =
      .popped (some t) :: e.answers (ts.map .expand) ++ [.putBack] ∧
    undone = { expanded with lastPopped := none } ∧
    ∀ requests, expanded.PopsFirst requests →
      undone.answers requests = expanded.answers requests ∧
      ∃ last, undone.after requests = { expanded.after requests with lastPopped := last } := by
  have hnumbered := (numbered_new g b).after h
  obtain ⟨⟨place, t⟩, hfirst⟩ : ∃ x, e.worklist.first? = some x := by
    rw [Worklist.first?_eq_head?, ← Option.isSome_iff_exists, List.isSome_head?,
      ← List.length_pos_iff, Worklist.length_toList]
    exact hline
  have hpop : e.pop? = some (t, e.withdraw place) := pop?_eq_some_iff.2 ⟨place, hfirst, rfl⟩
  obtain ⟨hanswers, hafter, hnumbered', hget⟩ := after_expand_withdraw hnumbered
    (Worklist.first?_eq_some_iff.1 hfirst).1 ts
  have hunpop := unpop?_withdraw hnumbered' hget
  have hnext := next_pop_of_some hpop
  have hundone : e.after (.pop :: ts.map .expand ++ [.unpop t]) =
      { e.after (ts.map .expand) with lastPopped := none } := by
    rw [List.cons_append, after_cons, after_append, hnext, hafter, after_cons,
      next_unpop_of_some hunpop]
    rfl
  refine ⟨t, _, _, rfl, rfl, ?_, hundone, ?_⟩
  · rw [List.cons_append, answers, answers_append, hnext, hanswers, hafter]
    simp only [answers, answer, hpop, hunpop]
    rfl
  · intro requests hrequests
    rw [hundone]
    exact answers_forget hrequests none

/-- The head of the line is popped, a sum is expanded, and the head is put back. A caller who then
puts back a literal in place of the next head gets the same answers as if the sum alone had been
expanded. -/
theorem unpop_undoes_pop_between : ∃ (e : Enumerator) (sum one : Tree),
    (new .arithmetic .zero).after? [.pop, .expand (.mkHole .zero .numeric)] = some e ∧
    sum.text = "Add(E, E)" ∧ one.text = "1" ∧ 0 < e.worklist.size ∧
    ∃ t undone expanded,
      undone = e.after [.pop, .expand sum, .unpop t] ∧
      expanded = e.after [.expand sum] ∧
      e.answers [.pop, .expand sum, .unpop t] =
        [.popped (some t), .expanded ⟨9, 0⟩, .putBack] ∧
      undone = { expanded with lastPopped := none } ∧
      expanded.PopsFirst [.pop, .unpop one, .pop, .pop] ∧
      undone.answers [.pop, .unpop one, .pop, .pop] =
        expanded.answers [.pop, .unpop one, .pop, .pop] := by
  let e := (new .arithmetic .zero).after [.pop, .expand (.mkHole .zero .numeric)]
  let sum : Tree := .mkBinary .zero .add (.mkHole .zero .numeric) (.mkHole .zero .numeric)
  let one : Tree := .mkLeaf .zero (.lit .one)
  have he : (new .arithmetic .zero).after? [.pop, .expand (.mkHole .zero .numeric)] = some e := rfl
  have hline : 0 < e.worklist.size := by decide +kernel
  obtain ⟨t, undone, expanded, hundone, hexpanded, hanswers, hsame, hlater⟩ :=
    unpop_undoes_pop he hline [sum]
  have hreport : e.answers [.expand sum] = [.expanded ⟨9, 0⟩] := by decide +kernel
  have hpop : expanded.answer .pop = .popped (some (.mkLeaf .zero (.var .x))) := by
    rw [hexpanded]
    decide +kernel
  have hfirst : expanded.PopsFirst [.pop, .unpop one, .pop, .pop] := popsFirst_pop_cons hpop _
  rw [List.map_singleton, hreport] at hanswers
  exact ⟨e, sum, one, he, by decide +kernel, by decide +kernel, hline, t, undone, expanded, hundone,
    hexpanded, hanswers, hsame, hfirst, (hlater _ hfirst).1⟩

end Enumerator

end Synthesis
