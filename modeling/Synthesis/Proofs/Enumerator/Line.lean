import Synthesis.Enumerator
import Synthesis.Proofs.Cost.Rounding
import Synthesis.Proofs.Grammar.Generation
import Synthesis.Proofs.Worklist.Order

/-!
# The enumerator as a line of trees

Discovery numbers are there to make the order of the worklist reproducible, and once it is known
that they do, nothing else has to speak of them. `e.line` is the list of trees in the order in
which they will be popped if nothing is added, and the operations become operations on lists:

* popping takes the head (`line_of_pop?`),
* a newcomer goes behind every tree that is no more expensive (`line_push`), and
* expanding lets the admitted growths join one after the other (`line_expand`).

The second of these needs the numbers to be in order, which is the invariant `Numbered`: the number
given out next is above all that are in use. Every operation keeps it.
-/

set_option autoImplicit false

namespace Synthesis

/-! ## Lines -/

namespace Tree

/-- Puts a newcomer behind every tree that is no more expensive. -/
def enqueue (line : List Tree) (t : Tree) : List Tree :=
  line.orderedInsert (fun t u => t.cost < u.cost) t

variable {line ts : List Tree} {t u : Tree}

/-- Newcomers and those who were there make up the new line. -/
theorem foldl_enqueue_perm (ts line : List Tree) : (ts.foldl enqueue line).Perm (ts ++ line) := by
  induction ts generalizing line with
  | nil => exact .refl _
  | cons t ts ih =>
    have hinsert : (enqueue line t).Perm (t :: line) := List.perm_orderedInsert _ t line
    exact (ih (enqueue line t)).trans ((hinsert.append_left ts).trans List.perm_middle)

theorem mem_foldl_enqueue : u ∈ ts.foldl enqueue line ↔ u ∈ ts ∨ u ∈ line :=
  (foldl_enqueue_perm ts line).mem_iff.trans List.mem_append

/-- The trees stand in the order of their costs. -/
def InOrder (line : List Tree) : Prop := line.Pairwise fun t u => t.cost ≤ u.cost

theorem InOrder.enqueue (h : InOrder line) (t : Tree) : InOrder (enqueue line t) := by
  induction line with
  | nil => exact List.pairwise_singleton _ _
  | cons u line ih =>
    obtain ⟨hu, hline⟩ := List.pairwise_cons.1 h
    rw [Tree.enqueue, List.orderedInsert_cons]
    by_cases hlt : t.cost < u.cost
    · rw [if_pos hlt]
      have hle : t.cost ≤ u.cost := Nat.le_of_lt hlt
      refine List.pairwise_cons.2 ⟨fun v hv => ?_, h⟩
      rcases List.mem_cons.1 hv with rfl | hv
      · exact hle
      · exact Cost.le_trans hle (hu v hv)
    · rw [if_neg hlt]
      refine List.pairwise_cons.2 ⟨fun v hv => ?_, ih hline⟩
      rcases (List.mem_orderedInsert _).1 hv with rfl | hv
      · exact Cost.not_lt.1 hlt
      · exact hu v hv

end Tree

namespace Enumerator

variable {e e' : Enumerator} {t : Tree}

/-! ## Discovery numbers -/

/-- Places are made of the tree's cost and a number of its own, and the next number is fresh. -/
structure Numbered (e : Enumerator) : Prop where
  cost : ∀ {place t}, e.worklist.get? place = some t → place.cost = t.cost
  lt_next : ∀ {place t}, e.worklist.get? place = some t → place.number < e.nextNumber
  unique : ∀ {p q t u}, e.worklist.get? p = some t → e.worklist.get? q = some u →
    p.number = q.number → p = q
  lastPopped : ∀ {number}, e.lastPopped = some number →
    number < e.nextNumber ∧ ∀ {place t}, e.worklist.get? place = some t → place.number ≠ number

/-- The place of an entry is told by the tree and the number. -/
theorem Numbered.ofTree_eq (h : e.Numbered) {place : Place}
    (hget : e.worklist.get? place = some t) : .ofTree t place.number = place := by
  rw [Place.ofTree, ← h.cost hget]

theorem Numbered.free (h : e.Numbered) (t : Tree) :
    e.worklist.get? (.ofTree t e.nextNumber) = none := by
  rw [Option.eq_none_iff_forall_ne_some]
  intro u hget
  exact absurd (h.lt_next hget) (Nat.lt_irrefl _)

/-- Under the number popped last there is room for any tree. -/
theorem Numbered.free_lastPopped (h : e.Numbered) {number : Nat}
    (hlast : e.lastPopped = some number) (t : Tree) :
    e.worklist.get? (.ofTree t number) = none := by
  rw [Option.eq_none_iff_forall_ne_some]
  intro u hget
  exact (h.lastPopped hlast).2 hget rfl

theorem numbered_empty (g : Grammar) (b : Bounds) (s : Stats) :
    Numbered ⟨g, b, .empty, 0, none, s⟩ where
  cost hget := absurd hget (by simp)
  lt_next hget := absurd hget (by simp)
  unique hget := absurd hget (by simp)
  lastPopped hlast := absurd hlast (by simp)

/-- A tree joins the line under a number that is not in use and is never given out again. -/
theorem Numbered.insert (h : e.Numbered) {number next : Nat} {last : Option Nat} {stats : Stats}
    (hnext : e.nextNumber ≤ next) (hlt : number < next)
    (hnew : ∀ {place t}, e.worklist.get? place = some t → place.number ≠ number)
    (hlast : ∀ {n}, last = some n → e.lastPopped = some n ∧ n ≠ number) :
    Numbered { e with
      worklist := e.worklist.insert t number, nextNumber := next, lastPopped := last, stats } where
  cost {place u} hget := by
    rw [Worklist.get?_insert] at hget
    split at hget
    next hp => rw [← hp, ← Option.some.inj hget]; rfl
    next => exact h.cost hget
  lt_next {place u} hget := by
    rw [Worklist.get?_insert] at hget
    split at hget
    next hp => rw [← hp]; exact hlt
    next => exact Nat.lt_of_lt_of_le (h.lt_next hget) hnext
  unique {p q u v} hp hq heq := by
    -- Two entries with one number are both the newcomer or both old; the newcomer's number is new.
    rw [Worklist.get?_insert] at hp hq
    split at hp <;> split at hq
    next hp' hq' => rw [← hp', ← hq']
    next hp' _ => exact absurd (heq.symm.trans (hp' ▸ rfl)) (hnew hq)
    next _ hq' => exact absurd (heq.trans (hq' ▸ rfl)) (hnew hp)
    next => exact h.unique hp hq heq
  lastPopped {n} hn := by
    obtain ⟨hpopped, hne⟩ := hlast hn
    obtain ⟨hlt', hfree⟩ := h.lastPopped hpopped
    refine ⟨Nat.lt_of_lt_of_le hlt' hnext, fun {place u} hget => ?_⟩
    rw [Worklist.get?_insert] at hget
    split at hget
    next hp => rw [← hp]; exact hne.symm
    next => exact hfree hget

theorem Numbered.push (h : e.Numbered) (t : Tree) : (e.push t).Numbered :=
  h.insert (Nat.le_succ _) (Nat.lt_succ_self _) (fun hget => Nat.ne_of_lt (h.lt_next hget))
    fun hlast => ⟨hlast, Nat.ne_of_lt (h.lastPopped hlast).1⟩

theorem numbered_new (g : Grammar) (b : Bounds) : (new g b).Numbered :=
  (numbered_empty g b _).push _

theorem pop?_eq_some_iff : e.pop? = some (t, e') ↔ ∃ place, e.worklist.first? = some (place, t) ∧
    e' = { e with
      worklist := e.worklist.erase place
      lastPopped := some place.number
      stats := { e.stats with popped := e.stats.popped + 1 } } := by
  rw [pop?, Option.map_eq_some_iff]
  constructor
  · rintro ⟨⟨place, u⟩, hfirst, heq⟩
    obtain ⟨rfl, rfl⟩ := Prod.mk.inj heq
    exact ⟨place, hfirst, rfl⟩
  · rintro ⟨place, hfirst, rfl⟩
    exact ⟨_, hfirst, rfl⟩

theorem Numbered.pop (h : e.Numbered) (hpop : e.pop? = some (t, e')) : e'.Numbered := by
  obtain ⟨place, hfirst, rfl⟩ := pop?_eq_some_iff.1 hpop
  have hplace := (Worklist.first?_eq_some_iff.1 hfirst).1
  have hrest {other : Place} {u : Tree} (hget : (e.worklist.erase place).get? other = some u) :
      other ≠ place ∧ e.worklist.get? other = some u := by
    rw [Worklist.get?_erase] at hget
    split at hget
    next => exact absurd hget (by simp)
    next hne => exact ⟨Ne.symm hne, hget⟩
  constructor
  · exact fun hget => h.cost (hrest hget).2
  · exact fun hget => h.lt_next (hrest hget).2
  · exact fun hp hq => h.unique (hrest hp).2 (hrest hq).2
  · intro number hnumber
    obtain rfl := Option.some.inj hnumber
    refine ⟨h.lt_next hplace, ?_⟩
    intro other u hget heq
    exact (hrest hget).1 (h.unique (hrest hget).2 hplace heq)

/-- Any tree may be put back, not only the one that was popped. -/
theorem Numbered.unpop (h : e.Numbered) (hunpop : e.unpop? t = some e') : e'.Numbered := by
  obtain ⟨number, hlast, rfl⟩ := Option.map_eq_some_iff.1 hunpop
  obtain ⟨hlt, hfree⟩ := h.lastPopped hlast
  exact h.insert (Nat.le_refl _) hlt hfree fun hnone => absurd hnone (by simp)

theorem Numbered.forget (h : e.Numbered) : Numbered { e with lastPopped := none } :=
  ⟨h.cost, h.lt_next, h.unique, fun hlast => absurd hlast (by simp)⟩

/-- The enumerator without the tree at a place, which was popped from it. -/
def withdraw (e : Enumerator) (place : Place) : Enumerator :=
  { e with
    worklist := e.worklist.erase place
    lastPopped := some place.number
    stats := { e.stats with popped := e.stats.popped + 1 } }

/-- Nothing but the tree popped last is forgotten when a tree is put back where it was. -/
theorem unpop?_withdraw (h : e.Numbered) {place : Place} (hget : e.worklist.get? place = some t) :
    (e.withdraw place).unpop? t = some { e with lastPopped := none } := by
  have hback : (e.worklist.erase place).insert t place.number = e.worklist := by
    have hof := h.ofTree_eq hget
    rw [← hof] at hget
    have hback := Worklist.insert_erase_of_get? hget
    rwa [hof] at hback
  simp only [unpop?, withdraw, Option.map_some, hback, Nat.add_sub_cancel]

theorem unpop?_of_pop? (h : e.Numbered) (hpop : e.pop? = some (t, e')) :
    e'.unpop? t = some { e with lastPopped := none } := by
  obtain ⟨place, hfirst, rfl⟩ := pop?_eq_some_iff.1 hpop
  exact unpop?_withdraw h (Worklist.first?_eq_some_iff.1 hfirst).1

/-! ## Popping and pushing as operations on the line -/

/-- The trees in the order in which they are in line. -/
def line (e : Enumerator) : List Tree := e.worklist.toList.map (·.2)

theorem inOrder_line (h : e.Numbered) : Tree.InOrder e.line := by
  refine List.pairwise_map.2 ((Worklist.pairwise_toList e.worklist).imp_of_mem ?_)
  intro x y hx hy hlt
  rw [← h.cost (Worklist.mem_toList.1 hx), ← h.cost (Worklist.mem_toList.1 hy)]
  rcases hlt with hlt | ⟨heq, -⟩
  · exact Nat.le_of_lt hlt
  · exact heq ▸ Cost.le_refl _

theorem line_of_pop? (hpop : e.pop? = some (t, e')) : e.line = t :: e'.line := by
  obtain ⟨place, hfirst, rfl⟩ := pop?_eq_some_iff.1 hpop
  rw [line, Worklist.toList_erase_first hfirst]
  rfl

@[simp] theorem length_line (e : Enumerator) : e.line.length = e.worklist.size := by
  rw [line, List.length_map, Worklist.length_toList]

theorem size_of_pop? (hpop : e.pop? = some (t, e')) :
    e'.worklist.size = e.worklist.size - 1 := by
  rw [← length_line, ← length_line, line_of_pop? hpop, List.length_cons, Nat.add_sub_cancel]

theorem size_of_unpop? (h : e.Numbered) (hunpop : e.unpop? t = some e') :
    e'.worklist.size = e.worklist.size + 1 := by
  obtain ⟨number, hlast, rfl⟩ := Option.map_eq_some_iff.1 hunpop
  exact Worklist.size_insert (h.free_lastPopped hlast t)

/-- Nothing in line is cheaper than the head. -/
theorem cost_le_of_pop? (h : e.Numbered) (hpop : e.pop? = some (t, e')) {u : Tree}
    (hu : u ∈ e.line) : t.cost ≤ u.cost := by
  have horder := inOrder_line h
  rw [line_of_pop? hpop] at horder hu
  rcases List.mem_cons.1 hu with rfl | hu
  · exact Cost.le_refl _
  · exact List.rel_of_pairwise_cons horder hu

theorem pop?_eq_none_iff : e.pop? = none ↔ e.line = [] := by
  rw [pop?, Option.map_eq_none_iff, Worklist.first?_eq_head?, List.head?_eq_none_iff, line,
    List.map_eq_nil_iff]

theorem exists_pop? {l : List Tree} (h : e.line = t :: l) :
    ∃ e', e.pop? = some (t, e') ∧ e'.line = l := by
  cases hpop : e.pop? with
  | none =>
    rw [pop?_eq_none_iff.1 hpop] at h
    exact absurd h (by simp)
  | some r =>
    obtain ⟨u, e'⟩ := r
    rw [line_of_pop? hpop] at h
    obtain ⟨rfl, rfl⟩ := List.cons.inj h
    exact ⟨e', rfl, rfl⟩

/-- Behind smaller numbers, the place of a newcomer is a matter of cost alone. -/
theorem map_orderedInsert_before {number : Nat} {l : List (Place × Tree)}
    (h : ∀ x ∈ l, x.1.cost = x.2.cost ∧ x.1.number < number) :
    (l.orderedInsert Worklist.Before (.ofTree t number, t)).map (·.2) =
      Tree.enqueue (l.map (·.2)) t := by
  induction l with
  | nil => rfl
  | cons x l ih =>
    obtain ⟨hcost, hlt⟩ := h x (by simp)
    have hbefore : Worklist.Before (.ofTree t number, t) x ↔ t.cost < x.2.cost := by
      rw [← hcost]
      refine or_iff_left fun ⟨_, hnumber⟩ => ?_
      exact Nat.lt_asymm hlt hnumber
    have ih := ih fun x hx => h x (by simp [hx])
    rw [List.map_cons, Tree.enqueue, List.orderedInsert_cons, List.orderedInsert_cons]
    by_cases hc : t.cost < x.2.cost
    · rw [if_pos hc, if_pos (hbefore.2 hc)]
      rfl
    · rw [if_neg hc, if_neg (hbefore.not.2 hc), List.map_cons, ih]
      rfl

theorem line_push (h : e.Numbered) (t : Tree) : (e.push t).line = Tree.enqueue e.line t := by
  rw [line, push, Worklist.toList_insert (h.free t)]
  refine map_orderedInsert_before ?_
  intro x hx
  have hget := Worklist.mem_toList.1 hx
  exact ⟨h.cost hget, h.lt_next hget⟩

theorem line_new (g : Grammar) (b : Bounds) : (new g b).line = [.mkHole b Grammar.start] :=
  line_push (numbered_empty g b _) _

/-! ## Expanding as an operation on the line -/

theorem expand_of_firstHole? {h : Hole} (hh : t.firstHole? = some h) :
    e.expand t = e.settle (e.candidates t h) := by
  rw [expand, hh]

/-- The growths of a tree that are not dropped. -/
def kept (e : Enumerator) (t : Tree) : List Tree :=
  (t.growths e.grammar e.bounds).filter fun u => decide (e.bounds.target ≤ u.bound)

theorem candidates_map_tree {h : Hole} (hh : t.firstHole? = some h) :
    (e.candidates t h).map (·.tree) = t.growths e.grammar e.bounds := by
  unfold candidates Tree.growths
  rw [hh, List.map_filterMap]
  refine congrArg (List.filterMap · _) (funext fun op => ?_)
  rw [fill?, Option.map_map]
  rfl

theorem kept_eq {h : Hole} (hh : t.firstHole? = some h) :
    ((e.candidates t h).filter e.admits).map (·.tree) = e.kept t := by
  rw [kept, ← candidates_map_tree hh, List.filter_map]
  rfl

/-- Expanding pushes what is kept, and counts. -/
theorem expand_eq (e : Enumerator) (t : Tree) :
    ∃ stats, (e.expand t).2 = { (e.kept t).foldl push e with stats } := by
  cases hh : t.firstHole? with
  | none =>
    refine ⟨e.stats, ?_⟩
    rw [expand, kept, Tree.growths]
    simp [hh]
  | some h =>
    rw [← kept_eq hh, List.foldl_map, expand_of_firstHole? hh]
    exact ⟨_, rfl⟩

/-- What an expansion reports are the lengths of its lists. -/
theorem expand_fst (e : Enumerator) (t : Tree) : (e.expand t).1 =
    ⟨(e.kept t).length, (t.growths e.grammar e.bounds).length - (e.kept t).length⟩ := by
  cases hh : t.firstHole? with
  | none =>
    rw [expand, kept, Tree.growths]
    simp [hh]
  | some h =>
    rw [← kept_eq hh, ← candidates_map_tree hh, expand_of_firstHole? hh, settle, List.length_map,
      List.length_map]

theorem foldl_push (h : e.Numbered) (ts : List Tree) :
    (ts.foldl push e).Numbered ∧ (ts.foldl push e).line = ts.foldl Tree.enqueue e.line := by
  induction ts generalizing e with
  | nil => exact ⟨h, rfl⟩
  | cons t ts ih =>
    obtain ⟨hnumbered, hline⟩ := ih (h.push t)
    rw [line_push h] at hline
    exact ⟨hnumbered, hline⟩

theorem Numbered.expand (h : e.Numbered) (t : Tree) : (e.expand t).2.Numbered := by
  obtain ⟨stats, heq⟩ := expand_eq e t
  have hfold := (foldl_push h (e.kept t)).1
  rw [heq]
  exact ⟨hfold.cost, hfold.lt_next, hfold.unique, hfold.lastPopped⟩

theorem line_expand (h : e.Numbered) (t : Tree) :
    (e.expand t).2.line = (e.kept t).foldl Tree.enqueue e.line := by
  obtain ⟨stats, heq⟩ := expand_eq e t
  rw [heq]
  exact (foldl_push h (e.kept t)).2

theorem size_expand (h : e.Numbered) (t : Tree) :
    (e.expand t).2.worklist.size = e.worklist.size + (e.kept t).length := by
  rw [← length_line, ← length_line, line_expand h, (Tree.foldl_enqueue_perm _ _).length_eq,
    List.length_append, Nat.add_comm]

/-! ## What never changes -/

theorem setting_of_pop? (hpop : e.pop? = some (t, e')) :
    e'.grammar = e.grammar ∧ e'.bounds = e.bounds := by
  obtain ⟨place, -, rfl⟩ := pop?_eq_some_iff.1 hpop
  exact ⟨rfl, rfl⟩

/-- Nothing but the line and what is counted changes when trees are put into line. -/
theorem foldl_push_eq (e : Enumerator) (ts : List Tree) :
    ts.foldl push e = { e with
      worklist := (ts.foldl push e).worklist
      nextNumber := e.nextNumber + ts.length
      stats := { e.stats with enqueued := e.stats.enqueued + ts.length } } := by
  induction ts generalizing e with
  | nil => rfl
  | cons t ts ih =>
    rw [List.foldl_cons]
    refine (ih (e.push t)).trans ?_
    simp only [push, List.length_cons, Nat.add_assoc, Nat.add_comm 1]

theorem setting_expand (e : Enumerator) (t : Tree) :
    (e.expand t).2.grammar = e.grammar ∧ (e.expand t).2.bounds = e.bounds := by
  obtain ⟨stats, heq⟩ := expand_eq e t
  rw [heq, foldl_push_eq]
  exact ⟨rfl, rfl⟩

/-! ## What stands in line -/

/-- Every tree in line was built under the enumerator's bounds and is generated by its grammar. -/
structure Faithful (e : Enumerator) : Prop where
  numbered : e.Numbered
  built : ∀ t ∈ e.line, t.Built e.bounds
  generates : ∀ t ∈ e.line, e.grammar.Generates Grammar.start t

theorem faithful_new (g : Grammar) (b : Bounds) : (new g b).Faithful where
  numbered := numbered_new g b
  built t ht := by
    rw [line_new, List.mem_singleton] at ht
    exact ht ▸ .hole Grammar.start
  generates t ht := by
    rw [line_new, List.mem_singleton] at ht
    exact ht ▸ .hole Grammar.start _

theorem Faithful.pop (h : e.Faithful) (hpop : e.pop? = some (t, e')) : e'.Faithful := by
  have hline := line_of_pop? hpop
  obtain ⟨hgrammar, hbounds⟩ := setting_of_pop? hpop
  refine ⟨h.numbered.pop hpop, ?_, ?_⟩
  · intro u hu
    rw [hbounds]
    exact h.built u (by simp [hline, hu])
  · intro u hu
    rw [hgrammar]
    exact h.generates u (by simp [hline, hu])

theorem mem_line_of_pop? (hpop : e.pop? = some (t, e')) : t ∈ e.line := by
  rw [line_of_pop? hpop]
  exact List.mem_cons_self

/-- Nothing but growths joins the line. -/
theorem mem_line_expand (h : e.Numbered) {u : Tree} :
    u ∈ (e.expand t).2.line ↔ u ∈ e.kept t ∨ u ∈ e.line := by
  rw [line_expand h, Tree.mem_foldl_enqueue]

theorem Faithful.expand (h : e.Faithful) (ht : t.Built e.bounds)
    (hg : e.grammar.Generates Grammar.start t) : (e.expand t).2.Faithful := by
  obtain ⟨hgrammar, hbounds⟩ := setting_expand e t
  refine ⟨h.numbered.expand t, ?_, ?_⟩
  · intro u hu
    rw [hbounds]
    rcases (mem_line_expand h.numbered).1 hu with hu | hu
    · exact Tree.built_of_mem_growths ht (List.mem_filter.1 hu).1
    · exact h.built u hu
  · intro u hu
    rw [hgrammar]
    rcases (mem_line_expand h.numbered).1 hu with hu | hu
    · exact Tree.generates_of_mem_growths hg (List.mem_filter.1 hu).1
    · exact h.generates u hu

/-- A tree that was just popped may be expanded. -/
theorem Faithful.expand_of_pop? (h : e.Faithful) (hpop : e.pop? = some (t, e')) :
    (e'.expand t).2.Faithful := by
  obtain ⟨hgrammar, hbounds⟩ := setting_of_pop? hpop
  have hmem := mem_line_of_pop? hpop
  exact (h.pop hpop).expand (hbounds ▸ h.built t hmem) (hgrammar ▸ h.generates t hmem)

theorem setting_expand_of_pop? (hpop : e.pop? = some (t, e')) :
    (e'.expand t).2.grammar = e.grammar ∧ (e'.expand t).2.bounds = e.bounds := by
  rw [(setting_expand e' t).1, (setting_expand e' t).2]
  exact setting_of_pop? hpop

end Enumerator

end Synthesis
