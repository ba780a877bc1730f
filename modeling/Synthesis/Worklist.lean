import Std.Data.ExtTreeMap
import Synthesis.Tree.Basic

/-!
# The worklist

The trees that wait to be looked at, in line by cost. Trees of equal cost stand in the order in
which they were discovered, which is told by a number that each tree is given when it joins the
line. Cost and number together are a tree's place; two entries never share one, since no two entries
share a number.

The line is a map from places to trees, ordered by place, and two worklists with the same entries
are equal however they came about. What the operations do is said by `get?`, the tree at a place.
-/

set_option autoImplicit false

namespace Synthesis

/-- A place in line: cheaper trees first, among these the one discovered first. -/
structure Place where
  cost : Cost
  number : Nat
  deriving DecidableEq

namespace Place

instance : Ord Place :=
  ⟨compareLex (compareOn fun place => place.cost.units) (compareOn fun place => place.number)⟩

instance : Std.TransOrd Place :=
  inferInstanceAs (Std.TransCmp
    (compareLex (compareOn fun place : Place => place.cost.units)
      (compareOn fun place : Place => place.number)))

/-- Places compare as equal only if they are the same. -/
instance : Std.LawfulEqOrd Place where
  eq_of_compare {a b} h := by
    obtain ⟨hcost, hnumber⟩ := Ordering.then_eq_eq.1 h
    have hcost := Cost.ext_units (Nat.compare_eq_eq.1 hcost)
    have hnumber : a.number = b.number := Nat.compare_eq_eq.1 hnumber
    cases a
    cases b
    simp_all

/-- One place is before another if it is cheaper, or costs the same and was given out earlier. -/
instance : LT Place :=
  ⟨fun a b => a.cost < b.cost ∨ a.cost = b.cost ∧ a.number < b.number⟩

theorem compare_eq_lt_iff {a b : Place} : compare a b = .lt ↔ a < b := by
  have hcost : a.cost = b.cost ↔ a.cost.units = b.cost.units :=
    ⟨fun h => h ▸ rfl, Cost.ext_units⟩
  show (compare a.cost.units b.cost.units).then (compare a.number b.number) = .lt ↔ _
  rw [Ordering.then_eq_lt, Nat.compare_eq_lt, Nat.compare_eq_lt, Nat.compare_eq_eq, ← hcost]
  rfl

/-- The place that a tree has under a discovery number. -/
def ofTree (t : Tree) (number : Nat) : Place := ⟨t.cost, number⟩

end Place

/-- The trees in line. -/
structure Worklist where
  entries : Std.ExtTreeMap Place Tree

namespace Worklist

/-- Nothing is in line. -/
def empty : Worklist := ⟨∅⟩

/-- The number of trees in line. -/
def size (w : Worklist) : Nat := w.entries.size

/-- The tree at a place, if there is one. -/
def get? (w : Worklist) (place : Place) : Option Tree := w.entries[place]?

/-- The entries in the order of their places. -/
def toList (w : Worklist) : List (Place × Tree) := w.entries.toList

/-- Puts a tree into line at its place under a discovery number. -/
def insert (w : Worklist) (t : Tree) (number : Nat) : Worklist :=
  ⟨w.entries.insert (.ofTree t number) t⟩

/-- Takes the tree at a place out of line. -/
def erase (w : Worklist) (place : Place) : Worklist := ⟨w.entries.erase place⟩

/-- The entry at the head of the line, which is the first one that a loop meets. -/
def first? (w : Worklist) : Option (Place × Tree) := Id.run do
  for entry in w.entries do
    return some entry
  return none

/-! ## First facts -/

/-- Worklists with the same tree at every place are the same. -/
theorem ext_get? {w v : Worklist} (h : ∀ place, w.get? place = v.get? place) : w = v := by
  cases w
  cases v
  congr
  exact Std.ExtTreeMap.ext_getElem? h

@[simp] theorem get?_empty (place : Place) : empty.get? place = none :=
  Std.ExtTreeMap.getElem?_empty

theorem get?_insert (w : Worklist) (t : Tree) (number : Nat) (place : Place) :
    (w.insert t number).get? place = if .ofTree t number = place then some t else w.get? place := by
  simp only [get?, insert, Std.ExtTreeMap.getElem?_insert, Std.LawfulEqOrd.compare_eq_iff_eq]

theorem get?_erase (w : Worklist) (place other : Place) :
    (w.erase place).get? other = if place = other then none else w.get? other := by
  simp only [get?, erase, Std.ExtTreeMap.getElem?_erase, Std.LawfulEqOrd.compare_eq_iff_eq]

theorem mem_toList {w : Worklist} {place : Place} {t : Tree} :
    (place, t) ∈ w.toList ↔ w.get? place = some t :=
  Std.ExtTreeMap.mem_toList_iff_getElem?_eq_some

@[simp] theorem length_toList (w : Worklist) : w.toList.length = w.size :=
  Std.ExtTreeMap.length_toList

theorem first?_eq_head? (w : Worklist) : w.first? = w.toList.head? := by
  unfold first? toList
  rw [Std.ExtTreeMap.forIn_eq_forIn_toList]
  cases w.entries.toList <;> rfl

end Worklist

end Synthesis
