import Mathlib.Data.List.Sort
import Synthesis.Worklist

/-!
# The worklist as a sorted list

A worklist is a map, and everything that it answers is said place by place. What a run does with
it is said more easily of the list that it holds in the order of its places. This module is the
way from one to the other. It rests on a single fact,

> **a strictly sorted list is the worklist's list as soon as it has the same entries**
> (`eq_toList`),

after which each operation is a matter of naming the list that it leads to: inserting puts the new
entry behind all that are before it, and the head of the line is the head of the list.
-/

set_option autoImplicit false

namespace Synthesis

namespace Place

variable {p q r : Place}

/-! ## The order of places -/

theorem lt_iff_units : p < q ↔
    p.cost.units < q.cost.units ∨ p.cost.units = q.cost.units ∧ p.number < q.number := by
  have hcost : p.cost = q.cost ↔ p.cost.units = q.cost.units := ⟨fun h => h ▸ rfl, Cost.ext_units⟩
  rw [← hcost]
  exact Iff.rfl

theorem lt_irrefl (p : Place) : ¬ p < p := by
  rw [lt_iff_units]
  omega

theorem lt_trans (h : p < q) (h' : q < r) : p < r := by
  rw [lt_iff_units] at *
  omega

theorem lt_asymm (h : p < q) : ¬ q < p :=
  fun h' => lt_irrefl p (lt_trans h h')

/-- Different places are in an order. -/
theorem lt_or_lt_of_ne (h : p ≠ q) : p < q ∨ q < p := by
  rw [← compare_eq_lt_iff, ← compare_eq_lt_iff, Std.OrientedOrd.eq_swap (a := q)]
  cases hc : compare p q with
  | lt => exact .inl rfl
  | eq => exact absurd (Std.LawfulEqOrd.eq_of_compare hc) h
  | gt => exact .inr rfl

instance (p q : Place) : Decidable (p < q) :=
  decidable_of_iff _ compare_eq_lt_iff

end Place

namespace Worklist

variable {w : Worklist} {place : Place} {t : Tree} {number : Nat}

/-- Entries in the order of their places. -/
def Before (e f : Place × Tree) : Prop := e.1 < f.1

instance : DecidableRel Before := fun e f => inferInstanceAs (Decidable (e.1 < f.1))

/-! ## The list of entries -/

theorem pairwise_toList (w : Worklist) : w.toList.Pairwise Before :=
  Std.ExtTreeMap.ordered_keys_toList.imp Place.compare_eq_lt_iff.1

theorem nodup_of_pairwise {l : List (Place × Tree)} (h : l.Pairwise Before) : l.Nodup := by
  refine List.Pairwise.imp (S := (· ≠ ·)) ?_ h
  rintro e _ hlt rfl
  exact Place.lt_irrefl e.1 hlt

/-- **The worklist's list is the only sorted one with its entries.** -/
theorem eq_toList {l : List (Place × Tree)} (hl : l.Pairwise Before)
    (hmem : ∀ place t, (place, t) ∈ l ↔ w.get? place = some t) : l = w.toList := by
  have hperm : l.Perm w.toList := by
    rw [List.perm_ext_iff_of_nodup (nodup_of_pairwise hl) (nodup_of_pairwise (pairwise_toList w))]
    intro e
    rw [hmem, mem_toList]
  exact hperm.eq_of_pairwise (fun _ _ _ _ h h' => absurd h' (Place.lt_asymm h)) hl
    (pairwise_toList w)

/-! ## Inserting -/

theorem pairwise_orderedInsert {e : Place × Tree} {l : List (Place × Tree)}
    (hl : l.Pairwise Before) (hnew : ∀ f ∈ l, f.1 ≠ e.1) :
    (l.orderedInsert Before e).Pairwise Before := by
  induction l with
  | nil => exact List.pairwise_singleton _ _
  | cons f l ih =>
    obtain ⟨hf, hl'⟩ := List.pairwise_cons.1 hl
    rw [List.orderedInsert_cons]
    by_cases hlt : Before e f
    · rw [if_pos hlt]
      refine List.pairwise_cons.2 ⟨fun x hx => ?_, hl⟩
      rcases List.mem_cons.1 hx with rfl | hx
      · exact hlt
      · exact Place.lt_trans hlt (hf x hx)
    · rw [if_neg hlt]
      refine List.pairwise_cons.2 ⟨fun x hx => ?_, ih hl' fun x hx => hnew x (by simp [hx])⟩
      rcases (List.mem_orderedInsert _).1 hx with rfl | hx
      · exact (Place.lt_or_lt_of_ne (hnew f (by simp))).resolve_right hlt
      · exact hf x hx

theorem toList_insert (hfree : w.get? (.ofTree t number) = none) :
    (w.insert t number).toList = w.toList.orderedInsert Before (.ofTree t number, t) := by
  have hnew : ∀ f ∈ w.toList, f.1 ≠ .ofTree t number := by
    intro f hf heq
    have hget : w.get? f.1 = some f.2 := mem_toList.1 hf
    rw [heq, hfree] at hget
    exact absurd hget (by simp)
  refine (eq_toList (pairwise_orderedInsert (pairwise_toList w) hnew) fun place u => ?_).symm
  rw [List.mem_orderedInsert, get?_insert, mem_toList]
  by_cases h : Place.ofTree t number = place
  · rw [if_pos h, ← h, hfree]
    simp [eq_comm]
  · rw [if_neg h]
    simp [Ne.symm h]

theorem size_insert (hfree : w.get? (.ofTree t number) = none) :
    (w.insert t number).size = w.size + 1 := by
  rw [← length_toList, toList_insert hfree, List.orderedInsert_length, length_toList]

/-- A newcomer at a free place takes nobody's place. -/
theorem mem_toList_insert (hfree : w.get? (.ofTree t number) = none) {x : Place × Tree} :
    x ∈ (w.insert t number).toList ↔ x = (.ofTree t number, t) ∨ x ∈ w.toList := by
  rw [toList_insert hfree, List.mem_orderedInsert]

/-- What was at a place may be put back there. -/
theorem insert_erase_of_get? (h : w.get? (.ofTree t number) = some t) :
    (w.erase (.ofTree t number)).insert t number = w := by
  refine ext_get? ?_
  intro place
  rw [get?_insert, get?_erase]
  by_cases hp : Place.ofTree t number = place
  · rw [if_pos hp, ← hp, h]
  · rw [if_neg hp, if_neg hp]

/-- A newcomer does not mind who leaves, unless it would have their place. -/
theorem insert_erase_comm (h : place ≠ .ofTree t number) :
    (w.erase place).insert t number = (w.insert t number).erase place := by
  refine ext_get? ?_
  intro other
  rw [get?_insert, get?_erase, get?_erase, get?_insert]
  by_cases hp : place = other
  · rw [if_pos hp, if_neg (hp ▸ h.symm), if_pos hp]
  · rw [if_neg hp, if_neg hp]

/-! ## Taking the head -/

/-- The head of the line is the entry that no other is before. -/
theorem first?_eq_some_iff : w.first? = some (place, t) ↔
    w.get? place = some t ∧ ∀ other, (w.get? other).isSome → ¬ other < place := by
  have hsorted := pairwise_toList w
  rw [first?_eq_head?, ← mem_toList]
  constructor
  · intro h
    obtain ⟨l, hl⟩ := List.head?_eq_some_iff.1 h
    rw [hl] at hsorted ⊢
    refine ⟨List.mem_cons_self, ?_⟩
    intro other hother hlt
    obtain ⟨u, hu⟩ := Option.isSome_iff_exists.1 hother
    rw [← mem_toList, hl] at hu
    rcases List.mem_cons.1 hu with heq | hu
    · obtain ⟨rfl, -⟩ := Prod.mk.inj heq
      exact Place.lt_irrefl _ hlt
    · exact Place.lt_asymm hlt (List.rel_of_pairwise_cons hsorted hu)
  · rintro ⟨hmem, hfirst⟩
    cases hl : w.toList with
    | nil => exact absurd hmem (by simp [hl])
    | cons e l =>
      rw [hl] at hmem hsorted
      rcases List.mem_cons.1 hmem with rfl | hmem
      · rfl
      · have he : w.get? e.1 = some e.2 := mem_toList.1 (by simp [hl])
        exact absurd (List.rel_of_pairwise_cons hsorted hmem) (hfirst e.1 (by simp [he]))

theorem toList_erase_first (h : w.first? = some (place, t)) :
    w.toList = (place, t) :: (w.erase place).toList := by
  rw [first?_eq_head?] at h
  obtain ⟨l, hl⟩ := List.head?_eq_some_iff.1 h
  have hsorted := pairwise_toList w
  rw [hl] at hsorted
  rw [hl]
  refine congrArg _ (eq_toList (List.pairwise_cons.1 hsorted).2 fun other u => ?_)
  have hmem : (other, u) ∈ w.toList ↔ w.get? other = some u := mem_toList
  rw [hl, List.mem_cons] at hmem
  rw [get?_erase]
  by_cases hp : place = other
  · rw [if_pos hp, ← hp]
    refine ⟨fun hu => ?_, fun h => absurd h (by simp)⟩
    exact absurd (List.rel_of_pairwise_cons hsorted hu) (Place.lt_irrefl _)
  · rw [if_neg hp, ← hmem]
    simp [Ne.symm hp]

end Worklist

end Synthesis
