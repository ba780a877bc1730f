import Synthesis.Proofs.Enumerator.Line

/-!
# First come, first served

A search uses its enumerator in one fixed way: it pops, and then it either expands the popped tree
or puts it back. Others may do as they like. They may pop several trees before they put one back,
put back another tree than they were handed, which may cost less or more, expand trees that were
never in line, and pop when nothing is left. Whatever they do,

> **the worklist serves its trees by cost, and trees of one cost in the order of their numbers**
> (`served_in_order`).

A number that is in use twice would spoil this, and putting a tree back is the one request that
brings an old number into play. It is harmless because the number was given up when its tree was
popped, and is forgotten as soon as it is in use again.

Entries are pairs of a place and a tree, and `worklist.toList` lists them. The second half of the
module says what each request does to these entries.
-/

set_option autoImplicit false

namespace Synthesis

namespace Enumerator

/-! ## Requests -/

/-- What a caller may ask of an enumerator. -/
inductive Request where
  /-- To hand out the tree at the head of the line. -/
  | pop
  /-- To put a tree back under the number popped last. -/
  | unpop (tree : Tree)
  /-- To fill the first hole of a tree. -/
  | expand (tree : Tree)
  deriving DecidableEq

/-- The enumerator after a request. A pop from an empty line changes nothing, and putting a tree
back is refused if no number was popped since the last time. -/
def perform? (e : Enumerator) : Request → Option Enumerator
  | .pop => some ((e.pop?.map (·.2)).getD e)
  | .unpop t => e.unpop? t
  | .expand t => some (e.expand t).2

/-- The enumerator after one request after the other, unless one of them is refused. -/
def after? (e : Enumerator) : List Request → Option Enumerator
  | [] => some e
  | r :: rs => (e.perform? r).bind (·.after? rs)

/-- The trees that pops hand out one after the other, as many as asked for unless the line runs
out. -/
def drain (e : Enumerator) : Nat → List Tree
  | 0 => []
  | n + 1 =>
    match e.pop? with
    | none => []
    | some (t, e) => t :: e.drain n

variable {g : Grammar} {b : Bounds} {e e' : Enumerator} {t : Tree} {r : Request}
  {requests : List Request}

/-! ## Numbers stay in order -/

theorem Numbered.perform (h : e.Numbered) (hr : e.perform? r = some e') : e'.Numbered := by
  cases r with
  | pop =>
    obtain rfl := Option.some.inj hr
    cases hpop : e.pop? with
    | none => exact h
    | some x => exact h.pop hpop
  | unpop t => exact h.unpop hr
  | expand t => exact Option.some.inj hr ▸ h.expand t

theorem Numbered.after (h : e.Numbered) (hrequests : e.after? requests = some e') :
    e'.Numbered := by
  induction requests generalizing e with
  | nil => exact Option.some.inj hrequests ▸ h
  | cons r rs ih =>
    obtain ⟨e₁, hr, hrs⟩ := Option.bind_eq_some_iff.1 hrequests
    exact ih (h.perform hr) hrs

/-- No number is in use twice. -/
theorem Numbered.nodup (h : e.Numbered) : (e.worklist.toList.map (·.1.number)).Nodup := by
  refine List.pairwise_map.2 ((Worklist.pairwise_toList e.worklist).imp_of_mem ?_)
  intro x y hx hy hlt heq
  have hplace := h.unique (Worklist.mem_toList.1 hx) (Worklist.mem_toList.1 hy) heq
  rw [Worklist.Before, hplace] at hlt
  exact Place.lt_irrefl _ hlt

/-- Entries are in the order of their trees' costs, and then of their numbers. -/
theorem Numbered.pairwise_cost (h : e.Numbered) : e.worklist.toList.Pairwise fun x y =>
    x.2.cost < y.2.cost ∨ x.2.cost = y.2.cost ∧ x.1.number < y.1.number := by
  refine (Worklist.pairwise_toList e.worklist).imp_of_mem ?_
  intro x y hx hy hlt
  rw [← h.cost (Worklist.mem_toList.1 hx), ← h.cost (Worklist.mem_toList.1 hy)]
  exact hlt

/-! ## What a request does to the entries -/

/-- The head of the line is handed out, everything else is behind it and stays. -/
theorem toList_of_pop? (hpop : e.pop? = some (t, e')) : ∃ place,
    e.worklist.toList = (place, t) :: e'.worklist.toList ∧ e'.lastPopped = some place.number ∧
      e'.nextNumber = e.nextNumber := by
  obtain ⟨place, hfirst, rfl⟩ := pop?_eq_some_iff.1 hpop
  exact ⟨place, Worklist.toList_erase_first hfirst, rfl, rfl⟩

theorem pop?_eq_none_iff_toList : e.pop? = none ↔ e.worklist.toList = [] := by
  rw [pop?_eq_none_iff, line, List.map_eq_nil_iff]

/-- A tree that is put back joins the others under the number popped last. -/
theorem Numbered.mem_toList_unpop (h : e.Numbered) (hunpop : e.unpop? t = some e')
    {x : Place × Tree} : x ∈ e'.worklist.toList ↔
      (e.lastPopped = some x.1.number ∧ x = (.ofTree t x.1.number, t)) ∨
        x ∈ e.worklist.toList := by
  obtain ⟨number, hlast, rfl⟩ := Option.map_eq_some_iff.1 hunpop
  rw [Worklist.mem_toList_insert (h.free_lastPopped hlast t), hlast]
  refine or_congr_left ⟨?_, ?_⟩
  · rintro rfl
    exact ⟨rfl, rfl⟩
  · rintro ⟨hnumber, hx⟩
    rw [hx, ← Option.some.inj hnumber]

theorem Numbered.toList_push_perm (h : e.Numbered) (t : Tree) :
    (e.push t).worklist.toList.Perm ((.ofTree t e.nextNumber, t) :: e.worklist.toList) := by
  rw [Enumerator.push, Worklist.toList_insert (h.free t)]
  exact List.perm_orderedInsert _ _ _

/-- Newcomers join the others under consecutive numbers. -/
theorem Numbered.toList_foldl_push_perm (h : e.Numbered) (ts : List Tree) :
    (ts.foldl Enumerator.push e).worklist.toList.Perm
      (e.worklist.toList ++ ts.mapIdx fun i u => (.ofTree u (e.nextNumber + i), u)) := by
  induction ts generalizing e with
  | nil => simp
  | cons t ts ih =>
    have hnext (i : Nat) : (e.push t).nextNumber + i = e.nextNumber + (i + 1) := by
      rw [Nat.add_comm i 1, ← Nat.add_assoc]
      rfl
    have hrest := ih (h.push t)
    simp only [hnext] at hrest
    rw [List.foldl_cons, List.mapIdx_cons]
    refine hrest.trans (((h.toList_push_perm t).append_right _).trans ?_)
    exact List.perm_middle.symm

theorem Numbered.mem_toList_foldl_push (h : e.Numbered) (ts : List Tree) {x : Place × Tree} :
    x ∈ (ts.foldl Enumerator.push e).worklist.toList ↔
      (∃ i, ts[i]? = some x.2 ∧ x.1 = .ofTree x.2 (e.nextNumber + i)) ∨
        x ∈ e.worklist.toList := by
  rw [(h.toList_foldl_push_perm ts).mem_iff, List.mem_append, or_comm, List.mem_mapIdx]
  refine or_congr_left (exists_congr fun i => ?_)
  constructor
  · rintro ⟨hi, rfl⟩
    exact ⟨List.getElem?_eq_getElem hi, rfl⟩
  · rintro ⟨hi, hplace⟩
    obtain ⟨hlt, hget⟩ := List.getElem?_eq_some_iff.1 hi
    exact ⟨hlt, hget ▸ Prod.ext (hget ▸ hplace.symm) rfl⟩

theorem Numbered.mem_toList_expand (h : e.Numbered) (t : Tree) {x : Place × Tree} :
    x ∈ (e.expand t).2.worklist.toList ↔
      (∃ i, (e.kept t)[i]? = some x.2 ∧ x.1 = .ofTree x.2 (e.nextNumber + i)) ∨
        x ∈ e.worklist.toList := by
  obtain ⟨stats, heq⟩ := expand_eq e t
  rw [heq]
  exact h.mem_toList_foldl_push (e.kept t)

theorem nextNumber_expand (e : Enumerator) (t : Tree) :
    (e.expand t).2.nextNumber = e.nextNumber + (e.kept t).length := by
  obtain ⟨stats, heq⟩ := expand_eq e t
  rw [heq, foldl_push_eq]

/-! ## Popping until nothing is left -/

theorem drain_eq_take (e : Enumerator) (n : Nat) : e.drain n = e.line.take n := by
  induction n generalizing e with
  | zero => exact List.take_zero.symm
  | succ n ih =>
    rw [drain]
    cases hpop : e.pop? with
    | none => rw [pop?_eq_none_iff.1 hpop, List.take_nil]
    | some x => rw [line_of_pop? hpop, List.take_succ_cons, ← ih]

theorem drain_eq_line {n : Nat} (hn : e.worklist.size ≤ n) : e.drain n = e.line := by
  rw [drain_eq_take]
  refine List.take_of_length_le ?_
  rw [line, List.length_map, Worklist.length_toList]
  exact hn

/-- **First come, first served.** However an enumerator was used, the numbers in use are distinct,
below the next one and different from the one popped last; a pop hands out the one entry that is
before all others and takes nothing else away; putting a tree back and expanding one take nothing
away at all; and pops until nothing is left hand out all entries, each of them once, by their costs
and then by their numbers. -/
theorem served_in_order (h : (new g b).after? requests = some e) :
    (e.worklist.toList.map (·.1.number)).Nodup ∧
    (∀ x ∈ e.worklist.toList, x.1.cost = x.2.cost ∧ x.1.number < e.nextNumber ∧
      e.lastPopped ≠ some x.1.number) ∧
    (e.pop? = none ↔ e.worklist.toList = []) ∧
    (∀ t e', e.pop? = some (t, e') → ∃ place, (place, t) ∈ e.worklist.toList ∧
      (∀ x ∈ e.worklist.toList, x = (place, t) ∨ place < x.1) ∧
      (∀ x, x ∈ e'.worklist.toList ↔ x ∈ e.worklist.toList ∧ x ≠ (place, t)) ∧
      e'.lastPopped = some place.number ∧ e'.nextNumber = e.nextNumber) ∧
    (∀ t e', e.unpop? t = some e' → ∀ x, x ∈ e'.worklist.toList ↔
      (e.lastPopped = some x.1.number ∧ x = (.ofTree t x.1.number, t)) ∨
        x ∈ e.worklist.toList) ∧
    (∀ t x, x ∈ (e.expand t).2.worklist.toList ↔
      (∃ i, (e.kept t)[i]? = some x.2 ∧ x.1 = .ofTree x.2 (e.nextNumber + i)) ∨
        x ∈ e.worklist.toList) ∧
    (∀ n, e.worklist.size ≤ n → e.drain n = e.worklist.toList.map (·.2)) ∧
    e.worklist.toList.Pairwise fun x y =>
      x.2.cost < y.2.cost ∨ x.2.cost = y.2.cost ∧ x.1.number < y.1.number := by
  have hnumbered := (numbered_new g b).after h
  refine ⟨hnumbered.nodup, ?_, pop?_eq_none_iff_toList, ?_, ?_, ?_, ?_, hnumbered.pairwise_cost⟩
  · intro x hx
    have hget := Worklist.mem_toList.1 hx
    refine ⟨hnumbered.cost hget, hnumbered.lt_next hget, ?_⟩
    intro hlast
    exact (hnumbered.lastPopped hlast).2 hget rfl
  · intro t e' hpop
    obtain ⟨place, hlist, hlast, hnext⟩ := toList_of_pop? hpop
    have hsorted := Worklist.pairwise_toList e.worklist
    rw [hlist] at hsorted ⊢
    have hbehind := fun x (hx : x ∈ e'.worklist.toList) => List.rel_of_pairwise_cons hsorted hx
    refine ⟨place, List.mem_cons_self, ?_, ?_, hlast, hnext⟩
    · intro x hx
      exact (List.mem_cons.1 hx).imp_right (hbehind x)
    · intro x
      rw [List.mem_cons]
      constructor
      · intro hx
        refine ⟨.inr hx, ?_⟩
        rintro rfl
        exact Place.lt_irrefl _ (hbehind _ hx)
      · rintro ⟨hx, hne⟩
        exact hx.resolve_left hne
  · intro t e' hunpop x
    exact hnumbered.mem_toList_unpop hunpop
  · intro t x
    exact hnumbered.mem_toList_expand t
  · intro n hn
    exact drain_eq_line hn

/-- Two leaves are popped, and a sum is put back under the number of the second. It is served after
the leaves, which are cheaper, and before the sum that was discovered later. -/
theorem served_in_order_swapped : ∃ e : Enumerator,
    (new .arithmetic .zero).after? [.pop, .expand (.mkHole .zero .numeric), .pop, .pop,
      .unpop (.mkBinary .zero .add (.mkLeaf .zero (.lit .one)) (.mkLeaf .zero (.lit .one)))] =
        some e ∧
    (e.worklist.toList.map (·.1.number)).Nodup ∧
    ∀ n, 8 ≤ n → (e.drain n).map Tree.text =
      ["z", "1", "2", "3", "Add(1, 1)", "Add(E, E)", "Multiply(E, E)", "Ite(B, E, E)"] := by
  have hview : ((new .arithmetic .zero).after? [.pop, .expand (.mkHole .zero .numeric), .pop, .pop,
      .unpop (.mkBinary .zero .add (.mkLeaf .zero (.lit .one)) (.mkLeaf .zero (.lit .one)))]).map
        (fun e => (e.worklist.size, (e.worklist.toList.map (·.2)).map Tree.text)) = some (8,
      ["z", "1", "2", "3", "Add(1, 1)", "Add(E, E)", "Multiply(E, E)", "Ite(B, E, E)"]) := by
    decide +kernel
  obtain ⟨e, he, hview⟩ := Option.map_eq_some_iff.1 hview
  obtain ⟨hsize, htexts⟩ := Prod.mk.inj hview
  obtain ⟨hnodup, -, -, -, -, -, hdrain, -⟩ := served_in_order he
  refine ⟨e, he, hnodup, ?_⟩
  intro n hn
  rw [hdrain n (hsize.le.trans hn), htexts]

end Enumerator

end Synthesis
