import Synthesis.Proofs.Enumerator.Queue
import Synthesis.Proofs.Search.Repetition

/-!
# In which order trees are looked at

The cheapest tree in line is looked at next, but then others join the line, so that this alone says
little about the whole run. What settles it is that nobody who joins can have come earlier. A tree
costs at least as much as the one it was grown from, whose turn it was just now, and its number is
above all that were given out. So

> **trees are looked at in strictly increasing order of cost and discovery**
> (`looked_at_in_order`),

through interruptions as well, because a tree that is put back has the number that it had.

`InSuccession` is the invariant. It speaks of three things: the list of all trees discovered, in
which a tree's number is its position, the entries that were taken, and the worklist.
-/

set_option autoImplicit false

namespace Synthesis

/-! ## Discoveries -/

/-- The trees that a step puts into line for the first time, in order. -/
def discoveries (g : Grammar) (b : Bounds) : Except SearchError Examined → List Tree
  | .ok (.expanded t _) => (t.growths g b).filter fun u => decide (b.target ≤ u.bound)
  | .ok (.rejected _) | .ok (.accepted _) | .error _ => []

/-- All trees that are put into line by the start and by steps with the given results, in order. -/
def discovered (g : Grammar) (b : Bounds) (results : List (Except SearchError Examined)) :
    List Tree :=
  .mkHole b Grammar.start :: results.flatMap (discoveries g b)

/-! ## The invariant -/

/-- Trees are numbered in the order of their discovery, and what was taken out of line was taken in
the order of places and before everything that is still there. -/
structure InSuccession (found : List Tree) (past : List (Place × Tree)) (e : Enumerator) :
    Prop where
  next : e.nextNumber = found.length
  entry : ∀ x, x ∈ past ∨ x ∈ e.worklist.toList →
    x.1.cost = x.2.cost ∧ found[x.1.number]? = some x.2
  taken : past.Pairwise Worklist.Before
  ahead : ∀ x ∈ past, ∀ y ∈ e.worklist.toList, Worklist.Before x y

namespace InSuccession

variable {g : Grammar} {b : Bounds} {found : List Tree} {past : List (Place × Tree)}
  {e e' : Enumerator} {x y : Place × Tree} {t : Tree}

theorem new (g : Grammar) (b : Bounds) :
    InSuccession [.mkHole b Grammar.start] [] (.new g b) where
  next := rfl
  entry x hx := by
    -- The start hole is pushed into an empty line.
    have hx := (Worklist.mem_toList_insert (Worklist.get?_empty _)).1 (hx.resolve_left (by simp))
    obtain rfl := hx.resolve_right fun hx => absurd (Worklist.mem_toList.1 hx) (by simp)
    exact ⟨rfl, rfl⟩
  taken := List.Pairwise.nil
  ahead := by simp

/-- Whoever was given a number keeps it, however many are discovered later. -/
theorem entry_append (h : InSuccession found past e) (hx : x ∈ past ∨ x ∈ e.worklist.toList)
    (more : List Tree) : x.1.cost = x.2.cost ∧ (found ++ more)[x.1.number]? = some x.2 := by
  obtain ⟨hcost, hfound⟩ := h.entry x hx
  have hlt := (List.getElem?_eq_some_iff.1 hfound).1
  exact ⟨hcost, (List.getElem?_append_left hlt).trans hfound⟩

/-- A number that was given out is below the next one. -/
theorem number_lt (h : InSuccession found past e) (hx : x ∈ past ∨ x ∈ e.worklist.toList) :
    x.1.number < e.nextNumber := by
  rw [h.next]
  exact (List.getElem?_eq_some_iff.1 (h.entry x hx).2).1

/-- What was taken first is no more expensive. -/
theorem cost_le (h : InSuccession found past e) (hx : x ∈ past ∨ x ∈ e.worklist.toList)
    (hy : y ∈ past ∨ y ∈ e.worklist.toList) (hbefore : Worklist.Before x y) :
    x.2.cost ≤ y.2.cost := by
  rw [← (h.entry x hx).1, ← (h.entry y hy).1]
  rcases hbefore with hlt | ⟨heq, -⟩
  · exact Nat.le_of_lt hlt
  · exact heq ▸ Cost.le_refl _

/-- The head of the line is taken and remembered. -/
theorem take (h : InSuccession found past e) (hlist : e.worklist.toList = x :: e'.worklist.toList)
    (hnext : e'.nextNumber = e.nextNumber) : InSuccession found (past ++ [x]) e' where
  next := hnext.trans h.next
  entry y hy := by
    refine h.entry y ?_
    rw [hlist, List.mem_cons]
    rw [List.mem_append, List.mem_singleton] at hy
    rcases hy with (hy | hy) | hy
    · exact .inl hy
    · exact .inr (.inl hy)
    · exact .inr (.inr hy)
  taken := by
    refine List.pairwise_append.2 ⟨h.taken, List.pairwise_singleton _ _, ?_⟩
    intro y hy z hz
    obtain rfl := List.mem_singleton.1 hz
    exact h.ahead y hy z (hlist ▸ List.mem_cons_self)
  ahead y hy z hz := by
    rcases List.mem_append.1 hy with hy | hy
    · exact h.ahead y hy z (hlist ▸ List.mem_cons_of_mem _ hz)
    · obtain rfl := List.mem_singleton.1 hy
      have hsorted := Worklist.pairwise_toList e.worklist
      rw [hlist] at hsorted
      exact List.rel_of_pairwise_cons hsorted hz

/-- An entry that was taken may be forgotten. -/
theorem forget (h : InSuccession found (past ++ [x]) e) : InSuccession found past e where
  next := h.next
  entry y hy := h.entry y (hy.imp_left (List.mem_append_left _))
  taken := (List.pairwise_append.1 h.taken).1
  ahead y hy := h.ahead y (List.mem_append_left _ hy)

/-- Trees that are no cheaper than anything taken so far join the line. -/
theorem expand (h : InSuccession found past e) (hnumbered : e.Numbered) (t : Tree)
    (hcost : ∀ x ∈ past, ∀ u ∈ e.kept t, x.2.cost ≤ u.cost) :
    InSuccession (found ++ e.kept t) past (e.expand t).2 where
  next := by rw [Enumerator.nextNumber_expand, List.length_append, h.next]
  entry y hy := by
    -- A newcomer's number is its position among the newcomers behind all that were found before.
    rw [hnumbered.mem_toList_expand t] at hy
    rcases hy with hy | ⟨i, hi, hplace⟩ | hy
    · exact h.entry_append (.inl hy) _
    · refine ⟨by rw [hplace]; rfl, ?_⟩
      rw [hplace, Place.ofTree, h.next, List.getElem?_append_right (Nat.le_add_right _ _),
        Nat.add_sub_cancel_left, hi]
    · exact h.entry_append (.inr hy) _
  taken := h.taken
  ahead x hx y hy := by
    rcases (hnumbered.mem_toList_expand t).1 hy with ⟨i, hi, hplace⟩ | hy
    · have hle := hcost x hx y.2 (List.mem_of_getElem? hi)
      have hlt : x.1.number < e.nextNumber + i :=
        Nat.lt_of_lt_of_le (h.number_lt (.inl hx)) (Nat.le_add_right _ _)
      rw [← (h.entry x (.inl hx)).1] at hle
      rw [Worklist.Before, hplace, Place.lt_iff_units]
      rcases Nat.lt_or_eq_of_le hle with hless | hequal
      · exact .inl hless
      · exact .inr ⟨hequal, hlt⟩
    · exact h.ahead x hx y hy

end InSuccession

namespace Search

variable {g : Grammar} {es : List Example} {ev : Evaluator} {limits : Limits} {s : Search}
  {found : List Tree} {past : List (Place × Tree)}

/-! ## Steps and histories -/

/-- The entry that a step takes out of line and looks at. -/
def taken? (s : Search) (x : Signals) : Option (Place × Tree) :=
  (lookedAt? (s.step x).1).bind fun _ => s.enumerator.worklist.first?

/-- The entries that the steps under the signals take out of line and look at. -/
def takings (s : Search) : List Signals → List (Place × Tree)
  | [] => []
  | x :: xs => (s.taken? x).toList ++ (s.step x).2.takings xs

theorem inSuccession_step (hfor : s.IsFor g es ev) (h : InSuccession found past s.enumerator)
    (x : Signals) :
    InSuccession (found ++ discoveries g (.ofExamples es) (s.step x).1)
      (past ++ (s.taken? x).toList) (s.step x).2.enumerator ∧
    (s.taken? x).map (·.2) = lookedAt? (s.step x).1 := by
  have hnumbered := hfor.faithful.numbered
  have houtcome := step_outcome hnumbered x
  have hpopped {t : Tree} {e : Enumerator} (hpop : s.enumerator.pop? = some (t, e)) :
      ∃ place, s.enumerator.worklist.first? = some (place, t) ∧
        InSuccession found (past ++ [(place, t)]) e := by
    obtain ⟨place, hlist, -, hnext⟩ := Enumerator.toList_of_pop? hpop
    refine ⟨place, ?_, h.take hlist hnext⟩
    rw [Worklist.first?_eq_head?, hlist]
    rfl
  unfold taken?
  generalize (s.step x).1 = result, (s.step x).2 = s' at houtcome ⊢
  cases houtcome with
  | exhausted =>
    simp only [discoveries, lookedAt?, Option.bind_none, Option.toList_none, List.append_nil]
    exact ⟨h, rfl⟩
  | hindered =>
    simp only [discoveries, lookedAt?, Option.bind_none, Option.toList_none, List.append_nil]
    exact ⟨⟨h.next, h.entry, h.taken, h.ahead⟩, rfl⟩
  | @expanded t e hpop =>
    obtain ⟨place, hfirst, htaken⟩ := hpopped hpop
    simp only [discoveries, lookedAt?, Option.bind_some, hfirst]
    refine ⟨?_, rfl⟩
    rw [← hfor.kept_of_pop? hpop]
    refine htaken.expand (hnumbered.pop hpop) t ?_
    -- Everything taken costs no more than the tree, and the tree no more than what grows from it.
    intro y hy u hu
    rw [hfor.kept_of_pop? hpop] at hu
    have hbuilt := hfor.built (Enumerator.mem_line_of_pop? hpop)
    refine Cost.le_trans ?_ (Tree.cost_le_of_mem_growths hbuilt (List.mem_filter.1 hu).1)
    rcases List.mem_append.1 hy with hold | hnew
    · have hbefore := (List.pairwise_append.1 htaken.taken).2.2 y hold _ List.mem_cons_self
      exact htaken.cost_le (.inl hy) (.inl (by simp)) hbefore
    · obtain rfl := List.mem_singleton.1 hnew
      exact Cost.le_refl _
  | failed hpop =>
    obtain ⟨place, -, htaken⟩ := hpopped hpop
    simp only [discoveries, lookedAt?, Option.bind_none, Option.toList_none, List.append_nil]
    exact ⟨htaken.forget, rfl⟩
  | rejected hpop =>
    obtain ⟨place, hfirst, htaken⟩ := hpopped hpop
    simp only [discoveries, lookedAt?, Option.bind_some, hfirst, List.append_nil]
    exact ⟨htaken, rfl⟩
  | accepted hpop =>
    obtain ⟨place, hfirst, htaken⟩ := hpopped hpop
    simp only [discoveries, lookedAt?, Option.bind_some, hfirst, List.append_nil]
    exact ⟨htaken, rfl⟩

theorem inSuccession_after (hfor : s.IsFor g es ev) (h : InSuccession found past s.enumerator)
    (history : List Signals) :
    InSuccession (found ++ (s.results history).flatMap (discoveries g (.ofExamples es)))
      (past ++ s.takings history) (s.after history).enumerator ∧
    (s.takings history).map (·.2) = s.examined history := by
  induction history generalizing s found past with
  | nil =>
    simp only [results, takings, List.flatMap_nil, List.append_nil]
    exact ⟨h, rfl⟩
  | cons x xs ih =>
    obtain ⟨hstep, hlooked⟩ := inSuccession_step hfor h x
    obtain ⟨hafter, hexamined⟩ := ih (hfor.step x) hstep
    constructor
    · rw [results, takings, List.flatMap_cons, ← List.append_assoc, ← List.append_assoc]
      exact hafter
    · rw [takings, examined_cons, List.map_append, hexamined, ← hlooked]
      cases s.taken? x <;> rfl

/-- **Trees are looked at in order.** Whatever the caps are and however often the search is stopped,
each tree that a step looks at carries its position among all that are discovered, and of any two,
the one that was looked at first is cheaper, or costs the same and was discovered first. -/
theorem looked_at_in_order (hstart : start g es limits ev = .ok s) (history : List Signals) :
    (s.takings history).map (·.2) = s.examined history ∧
    (∀ x ∈ s.takings history,
      (discovered g (.ofExamples es) (s.results history))[x.1.number]? = some x.2) ∧
    (s.takings history).Pairwise fun x y =>
      x.2.cost < y.2.cost ∨ x.2.cost = y.2.cost ∧ x.1.number < y.1.number := by
  have hnew : InSuccession [.mkHole (.ofExamples es) Grammar.start] [] s.enumerator := by
    obtain ⟨-, rfl⟩ := start_eq_ok_iff.1 hstart
    exact .new g _
  obtain ⟨hall, hexamined⟩ := inSuccession_after (isFor_of_start hstart) hnew history
  rw [List.nil_append] at hall
  refine ⟨hexamined, ?_, ?_⟩
  · intro x hx
    exact (hall.entry x (.inl hx)).2
  · refine hall.taken.imp_of_mem ?_
    intro x y hx hy hbefore
    rw [← (hall.entry x (.inl hx)).1, ← (hall.entry y (.inl hy)).1]
    exact hbefore

/-- The search is stopped once, before it looks at its second tree. The conditional, discovered
before the sum, costs more and has to wait. -/
theorem looked_at_in_order_stopped : ∃ s : Search,
    start .arithmetic [.ofValues 0 0 0 1, .ofValues 1 0 0 2] .none .interpreter = .ok s ∧
    (s.takings [.quiet, ⟨true, 0⟩, .quiet, .quiet, .quiet, .quiet]).map
      (fun x => (x.1.number, x.2.text)) =
        [(0, "E"), (1, "2"), (2, "3"), (4, "Add(E, E)"), (5, "Multiply(E, E)")] ∧
    (s.takings [.quiet, ⟨true, 0⟩, .quiet, .quiet, .quiet, .quiet]).Pairwise fun x y =>
      x.2.cost < y.2.cost ∨ x.2.cost = y.2.cost ∧ x.1.number < y.1.number := by
  let es : List Example := [.ofValues 0 0 0 1, .ofValues 1 0 0 2]
  let s : Search := ⟨.new .arithmetic (.ofExamples es), es, .interpreter, .none, 0⟩
  have hstart : start .arithmetic es .none .interpreter = .ok s := rfl
  obtain ⟨-, -, hordered⟩ := looked_at_in_order hstart
    [.quiet, ⟨true, 0⟩, .quiet, .quiet, .quiet, .quiet]
  exact ⟨s, hstart, by decide +kernel, hordered⟩

end Search

end Synthesis
