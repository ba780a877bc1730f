import Synthesis.Proofs.Cost.Whole
import Synthesis.Proofs.Tree.Progress

/-!
# What is cheap is small

Variables, literals and holes are free, so a cost says nothing about them. But they only stand below
operators that take operands, at most three below each, and every one of those weighs at least 1.
As long as costs count, then,

> **a cheap tree has few nodes** (`filled_le_of_cost_lt`),

and the growths of a tree can only go on for so long before they are too expensive.
-/

set_option autoImplicit false

namespace Synthesis

theorem Operator.atLeast_weight {op : Operator} (h : op.arity ≠ 0) : Cost.AtLeast 1 op.weight := by
  cases op with
  | atom a => exact absurd rfl h
  | not => exact Cost.atLeast_ofTenths (by decide)
  | binary op => exact Cost.atLeast_ofTenths (by decide)
  | ite => exact Cost.atLeast_ofTenths (by decide)

namespace Tree

variable {b : Bounds} {t : Tree}

/-- The number of operators that take operands, added up the way costs are. -/
def branchings : Tree → Nat
  | hole _ _ | leaf _ _ => 0
  | not c _ => 1 + c.branchings
  | binary _ l r _ => 1 + (l.branchings + r.branchings)
  | ite c p n _ => 1 + (c.branchings + p.branchings + n.branchings)

theorem filled_le_branchings (t : Tree) : t.filled ≤ 3 * t.branchings + 1 := by
  induction t with
  | hole c s => exact Nat.zero_le _
  | leaf a s => exact Nat.le_refl 1
  | not c s ih =>
    simp only [filled, branchings]
    omega
  | binary op l r s ihl ihr =>
    simp only [filled, branchings]
    omega
  | ite c p n s ihc ihp ihn =>
    simp only [filled, branchings]
    omega

theorem atLeast_branchings (ht : Built b t) : Cost.AtLeast t.branchings t.cost := by
  induction ht with
  | hole c => exact Cost.atLeast_zero _
  | leaf a => exact Cost.atLeast_zero _
  | not _ ih =>
    apply Cost.AtLeast.add _ ih
    exact Operator.atLeast_weight (by decide)
  | binary op _ _ ihl ihr =>
    apply Cost.AtLeast.add _ (ihl.add ihr)
    exact Operator.atLeast_weight (Nat.succ_ne_zero 1)
  | ite _ _ _ ihc ihp ihn =>
    apply Cost.AtLeast.add _ ((ihc.add ihp).add ihn)
    exact Operator.atLeast_weight (by decide)

/-- The number of nodes that are no holes is limited where whole numbers are exact. -/
theorem filled_le_of_cost_lt (ht : Built b t) (hcost : t.cost < .ofWhole Cost.wholeLimit) :
    t.filled ≤ 3 * Cost.wholeLimit + 1 := by
  have hle : min t.branchings Cost.wholeLimit * Cost.unitsPerOne ≤ t.cost.units :=
    atLeast_branchings ht
  have hlt := Nat.lt_of_le_of_lt hle (Cost.lt_iff.1 hcost)
  rw [Cost.units_ofWhole (Nat.le_refl _)] at hlt
  have hmin := Nat.lt_of_mul_lt_mul_right hlt
  have hfilled := filled_le_branchings t
  omega

end Tree

end Synthesis
