import Synthesis.Proofs.Bounds.Soundness

/-!
# Saturating once or at every node

A bound that no longer fits is replaced by the largest number, at every node anew, and the nodes
above go on with what is left of it. One may as well work in the natural numbers, where everything
fits, and cut off at the very end:

> **the bound of a tree is its exact bound, capped once** (`bound_eq_cap`).

Cutting off respects sums and larger ones of two numbers, which is plain, and products, which is
less so. A factor that was cut off may meet a zero, and then the product is zero on both sides; and
if it meets anything else, then the product is cut off anyway (`min_min_mul`). What it takes is that
no number is negative: a negative summand would come off the capped number and not off the exact
one. So that no ceiling is negative is carried along.
-/

set_option autoImplicit false

namespace Synthesis

namespace Value

variable {a : Value}

/-! ## Capped numbers -/

/-- The number, or the largest value if it does not fit. -/
def cap (n : Nat) : Value := .ofIntClamp n

theorem toInt_cap (n : Nat) : (cap n).toInt = (min n 9223372036854775807 : Nat) := by
  have h : (cap n).toInt = _ := toInt_clamp n
  omega

/-- A value that is not negative fits. -/
theorem cap_toNat (h : 0 ≤ a) : cap a.toInt.toNat = a := by
  rw [nonneg_iff] at h
  have hrange := toInt_range a
  rw [← Int64.toInt_inj, toInt_cap]
  omega

theorem cap_nonneg (n : Nat) : 0 ≤ cap n := by
  rw [nonneg_iff, toInt_cap]
  omega

theorem satAdd_cap (m n : Nat) : (cap m).satAdd (cap n) = cap (m + n) := by
  rw [← Int64.toInt_inj, toInt_satAdd, toInt_cap, toInt_cap, toInt_cap]
  omega

theorem max_cap (m n : Nat) : max (cap m) (cap n) = cap (max m n) := by
  rw [← Int64.toInt_inj, toInt_max, toInt_cap, toInt_cap, toInt_cap]
  omega

/-- A factor may be cut off before the product is. -/
theorem min_min_mul (m n limit : Nat) : min (min m limit * n) limit = min (m * n) limit := by
  rcases Nat.le_total m limit with hm | hm
  · rw [Nat.min_eq_left hm]
  · rw [Nat.min_eq_right hm]
    rcases Nat.eq_zero_or_pos n with rfl | hn
    · rfl
    · have hcut : limit ≤ limit * n := Nat.le_mul_of_pos_right limit hn
      have hexact : limit ≤ m * n := Nat.le_trans hm (Nat.le_mul_of_pos_right m hn)
      rw [Nat.min_eq_right hcut, Nat.min_eq_right hexact]

theorem min_mul_min (m n limit : Nat) :
    min (min m limit * min n limit) limit = min (m * n) limit := by
  rw [min_min_mul, Nat.mul_comm m, min_min_mul, Nat.mul_comm n]

theorem satMul_cap (m n : Nat) : (cap m).satMul (cap n) = cap (m * n) := by
  have hproduct := min_mul_min m n 9223372036854775807
  rw [← Int64.toInt_inj, toInt_satMul, toInt_cap, toInt_cap, toInt_cap]
  omega

end Value

namespace Bounds

variable {b : Bounds}

/-! ## The rules in the natural numbers -/

/-- The exact bound of a variable or a literal. -/
def exactAtom (b : Bounds) : Atom → Nat
  | .var v => (b.ceilings.get v).toInt.toNat
  | .lit l => l.value.toInt.toNat

/-- The exact bound of two operands put together. -/
def exactBinary (b : Bounds) : BinaryOperator → Nat → Nat → Nat
  | .add, m, n => m + n
  | .multiply, m, n => m * n
  | .lt, _, _ | .eq, _, _ | .and, _, _ | .or, _, _ => b.target.toInt.toNat

theorem ofAtom_eq_cap (hb : b.Nonneg) (a : Atom) : b.ofAtom a = Value.cap (b.exactAtom a) := by
  cases a with
  | var v => exact (Value.cap_toNat (hb.ceilings v)).symm
  | lit l => exact (Value.cap_toNat l.value_nonneg).symm

theorem ofBinary_cap (hb : b.Nonneg) (op : BinaryOperator) (m n : Nat) :
    b.ofBinary op (Value.cap m) (Value.cap n) = Value.cap (b.exactBinary op m n) := by
  cases op with
  | add => exact Value.satAdd_cap m n
  | multiply => exact Value.satMul_cap m n
  | lt | eq | and | or => exact (Value.cap_toNat hb.target).symm

end Bounds

namespace Tree

variable {b : Bounds} {t : Tree}

/-- The bound of a tree by the same rules, in the natural numbers. -/
def exactBound (b : Bounds) : Tree → Nat
  | hole _ _ | not _ _ => b.target.toInt.toNat
  | leaf a _ => b.exactAtom a
  | binary op l r _ => b.exactBinary op (l.exactBound b) (r.exactBound b)
  | ite _ p n _ => max (p.exactBound b) (n.exactBound b)

/-- **Capping once is enough.** -/
theorem bound_eq_cap (hb : b.Nonneg) (ht : Built b t) : t.bound = Value.cap (t.exactBound b) := by
  induction ht with
  | hole c => exact (Value.cap_toNat hb.target).symm
  | leaf a => exact Bounds.ofAtom_eq_cap hb a
  | not _ _ => exact (Value.cap_toNat hb.target).symm
  | @binary op l r _ _ ihl ihr =>
    show b.ofBinary op l.bound r.bound = Value.cap (b.exactBinary op _ _)
    rw [ihl, ihr, Bounds.ofBinary_cap hb]
  | @ite c p n _ _ _ _ ihp ihn =>
    show max p.bound n.bound = Value.cap (max _ _)
    rw [ihp, ihn, Value.max_cap]

/-- **Saturating at every node is saturating once.** Under bounds without a negative target or
ceiling, such as those of examples always are, the bound of every tree is not negative, and it is
the smaller of the largest value and the bound that the same rules give in the natural numbers. -/
theorem bound_saturates_once :
    (∀ es, (Bounds.ofExamples es).Nonneg) ∧
      ∀ b t, b.Nonneg → Built b t →
        0 ≤ t.bound ∧ t.bound.toInt = min Int64.maxValue.toInt (t.exactBound b) := by
  refine ⟨Bounds.nonneg_ofExamples, ?_⟩
  intro b t hb ht
  rw [bound_eq_cap hb ht, Value.toInt_cap, Int64.toInt_maxValue]
  exact ⟨Value.cap_nonneg _, by omega⟩

/-- The square of `x` does not fit by far. Multiplied by a variable that is always zero it is zero
all the same, and with a hole added to it it is cut off a second time. -/
theorem bound_saturates_once_square : ∃ (e : Example) (t product : Tree),
    t.text = "Ite(B, Multiply(Multiply(x, x), y), Add(Multiply(x, x), E))" ∧
      product.text = "Multiply(Multiply(x, x), y)" ∧ e = .ofValues Int64.minValue 0 5 7 ∧
      product.bound.toInt = 0 ∧ t.bound.toInt = 2 ^ 63 - 1 ∧
      t.exactBound (.ofExamples [e]) = (2 ^ 63 - 1) ^ 2 + 7 := by
  let e : Example := .ofValues Int64.minValue 0 5 7
  let b := Bounds.ofExamples [e]
  let x : Tree := .mkLeaf b (.var .x)
  let square : Tree := .mkBinary b .multiply x x
  let product : Tree := .mkBinary b .multiply square (.mkLeaf b (.var .y))
  let t : Tree := .mkIte (.mkHole b .boolean) product
    (.mkBinary b .add square (.mkHole b .numeric))
  have ht : t.Built b := by decide +kernel
  have hproduct : product.Built b := by decide +kernel
  obtain ⟨hnonneg, hbound⟩ := bound_saturates_once
  have hzero : product.exactBound b = 0 := by decide +kernel
  have hexact : t.exactBound b = (2 ^ 63 - 1) ^ 2 + 7 := by decide +kernel
  refine ⟨e, t, product, by decide +kernel, by decide +kernel, rfl, ?_, ?_, hexact⟩
  · rw [(hbound b product (hnonneg [e]) hproduct).2, hzero]
    decide
  · rw [(hbound b t (hnonneg [e]) ht).2, hexact]
    decide

end Tree

end Synthesis
