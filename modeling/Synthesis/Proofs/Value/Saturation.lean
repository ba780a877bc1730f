import Mathlib.Algebra.Order.Ring.Int
import Synthesis.Value

/-!
# Saturated bounds over wrapping arithmetic

Programs compute with wrapping sums and products, bounds with saturating ones. This file is what
ties the two together, and it is all the arithmetic that anything about trees needs:

> **a saturated bound on the operands bounds the wrapped result** (`satAbs_add_le`,
> `satAbs_mul_le`), whatever overflowed on the way.

Two ends of the range need care. The magnitude of the smallest number is not representable, so
`satAbs` of it is one less than its true magnitude; and a bound that has saturated says nothing
any more, except when it is multiplied by zero. Both are settled here: the smallest number only
ever sits below the largest bound, and then the sum or product is either saturated as well or a
product with zero on both sides.

The second half is about bounds alone. A sum or product that stays *below* some number `T` has
operands of which enough is known to rebuild it: both summands are below `T`, and of a product's
factors each one that is not below `T` stands beside a zero (`satMul_le_of_lt`).
-/

set_option autoImplicit false

namespace Synthesis

namespace Value

variable {a b x y x' y' T : Value}

/-! ## Values as integers -/

theorem toInt_range (a : Value) :
    -9223372036854775808 ≤ a.toInt ∧ a.toInt ≤ 9223372036854775807 := by
  have hlow := Int64.le_toInt a
  have hhigh := Int64.toInt_lt a
  omega

theorem toInt_clamp (i : Int) :
    (Int64.ofIntClamp i).toInt = max (-9223372036854775808) (min i 9223372036854775807) := by
  rw [toInt_ofIntClamp, Int64.toInt_minValue, Int64.toInt_maxValue]
  rfl

theorem toInt_satAdd (a b : Value) : (a.satAdd b).toInt =
    max (-9223372036854775808) (min (a.toInt + b.toInt) 9223372036854775807) :=
  toInt_clamp _

theorem toInt_satMul (a b : Value) : (a.satMul b).toInt =
    max (-9223372036854775808) (min (a.toInt * b.toInt) 9223372036854775807) :=
  toInt_clamp _

theorem toInt_satAbs (a : Value) :
    a.satAbs.toInt = min (a.toInt.natAbs : Int) 9223372036854775807 := by
  have h : a.satAbs.toInt = _ := toInt_clamp _
  omega

theorem toInt_max (a b : Value) : (max a b).toInt = max a.toInt b.toInt := by
  show (if a ≤ b then b else a).toInt = _
  by_cases h : a ≤ b
  · rw [if_pos h]
    rw [Int64.le_iff_toInt_le] at h
    omega
  · rw [if_neg h]
    rw [Int64.le_iff_toInt_le] at h
    omega

theorem le_max_left (a b : Value) : a ≤ max a b := by
  rw [Int64.le_iff_toInt_le, toInt_max]
  omega

theorem le_max_right (a b : Value) : b ≤ max a b := by
  rw [Int64.le_iff_toInt_le, toInt_max]
  omega

theorem max_le_iff {a b c : Value} : max a b ≤ c ↔ a ≤ c ∧ b ≤ c := by
  rw [Int64.le_iff_toInt_le, Int64.le_iff_toInt_le, Int64.le_iff_toInt_le, toInt_max]
  omega

theorem max_le_max (hx : x' ≤ x) (hy : y' ≤ y) : max x' y' ≤ max x y := by
  rw [Int64.le_iff_toInt_le] at hx hy ⊢
  rw [toInt_max, toInt_max]
  omega

theorem max_eq_or (a b : Value) : max a b = a ∨ max a b = b := by
  show (if a ≤ b then b else a) = a ∨ (if a ≤ b then b else a) = b
  by_cases h : a ≤ b
  · exact .inr (if_pos h)
  · exact .inl (if_neg h)

theorem nonneg_iff : 0 ≤ a ↔ 0 ≤ a.toInt := Int64.le_iff_toInt_le

/-- A number that is not negative is its own magnitude. -/
theorem satAbs_of_nonneg (h : 0 ≤ a) : a.satAbs = a := by
  rw [nonneg_iff] at h
  have hr := toInt_range a
  rw [← Int64.toInt_inj, toInt_satAbs]
  omega

/-! ## Bounds on wrapped results -/

/-- Wrapping leaves alone what is in range. -/
theorem bmod_of_range {i : Int} (hlow : -9223372036854775808 ≤ i)
    (hhigh : i ≤ 9223372036854775807) : i.bmod (2 ^ 64) = i :=
  Int.bmod_eq_of_le_mul_two (by omega) (by omega)

theorem satAbs_le_max (a : Value) : a.satAbs.toInt ≤ 9223372036854775807 := by
  rw [toInt_satAbs]
  omega

theorem satAbs_add_le (ha : a.satAbs ≤ x) (hb : b.satAbs ≤ y) : (a + b).satAbs ≤ x.satAdd y := by
  rw [Int64.le_iff_toInt_le, toInt_satAbs] at ha hb
  rw [Int64.le_iff_toInt_le, toInt_satAdd]
  by_cases hfull : 9223372036854775807 ≤ x.toInt + y.toInt
  · have := satAbs_le_max (a + b)
    omega
  · -- The bounds have room, so neither operand is the smallest number and nothing wraps.
    have hadd : (a + b).toInt = a.toInt + b.toInt := by
      rw [Int64.toInt_add, bmod_of_range (by omega) (by omega)]
    rw [toInt_satAbs, hadd]
    omega

theorem satAbs_mul_le (ha : a.satAbs ≤ x) (hb : b.satAbs ≤ y) : (a * b).satAbs ≤ x.satMul y := by
  rw [Int64.le_iff_toInt_le, toInt_satAbs] at ha hb
  rw [Int64.le_iff_toInt_le, toInt_satMul]
  by_cases hfull : 9223372036854775807 ≤ x.toInt * y.toInt
  · have := satAbs_le_max (a * b)
    omega
  · have habs : ((a.toInt * b.toInt).natAbs : Int) ≤ x.toInt * y.toInt := by
      rw [Int.natAbs_mul, Int.natCast_mul]
      -- An operand may exceed its bound only at the smallest number, and then the other is zero.
      by_cases hx : (a.toInt.natAbs : Int) ≤ x.toInt
      · by_cases hy : (b.toInt.natAbs : Int) ≤ y.toInt
        · exact Int.mul_le_mul hx hy (by omega) (by omega)
        · have hymax : y.toInt = 9223372036854775807 := by
            have := toInt_range y
            omega
          have hxzero : x.toInt = 0 := by
            rw [hymax] at hfull
            omega
          have hazero : (a.toInt.natAbs : Int) = 0 := by omega
          rw [hazero, hxzero, Int.zero_mul, Int.zero_mul]
      · have hxmax : x.toInt = 9223372036854775807 := by
          have := toInt_range x
          omega
        have hyzero : y.toInt = 0 := by
          rw [hxmax] at hfull
          omega
        have hbzero : (b.toInt.natAbs : Int) = 0 := by omega
        rw [hbzero, hyzero, Int.mul_zero, Int.mul_zero]
    have hmul : (a * b).toInt = a.toInt * b.toInt := by
      rw [Int64.toInt_mul, bmod_of_range (by omega) (by omega)]
    rw [toInt_satAbs, hmul]
    omega

/-! ## Bounds that grow and bounds that stay low -/

theorem satAdd_nonneg (hx : 0 ≤ x) (hy : 0 ≤ y) : 0 ≤ x.satAdd y := by
  rw [nonneg_iff] at hx hy ⊢
  rw [toInt_satAdd]
  omega

theorem satMul_nonneg (hx : 0 ≤ x) (hy : 0 ≤ y) : 0 ≤ x.satMul y := by
  rw [nonneg_iff] at hx hy ⊢
  have := Int.mul_nonneg hx hy
  rw [toInt_satMul]
  omega

theorem satAdd_le_satAdd (hx : x' ≤ x) (hy : y' ≤ y) : x'.satAdd y' ≤ x.satAdd y := by
  rw [Int64.le_iff_toInt_le] at hx hy ⊢
  rw [toInt_satAdd, toInt_satAdd]
  omega

/-- Both summands of a low sum are low. -/
theorem lt_of_satAdd_lt (hx : 0 ≤ x) (hy : 0 ≤ y) (h : x.satAdd y < T) : x < T ∧ y < T := by
  rw [nonneg_iff] at hx hy
  rw [Int64.lt_iff_toInt_lt, toInt_satAdd] at h
  have := toInt_range x
  have := toInt_range y
  rw [Int64.lt_iff_toInt_lt, Int64.lt_iff_toInt_lt]
  omega

/-- A low product is not exceeded when each factor that is low itself is replaced by one that does
not exceed it. A factor that is not low may be replaced by anything: the other one is zero then,
and low, and stays zero. -/
theorem satMul_le_of_lt (hx : 0 ≤ x) (hy : 0 ≤ y) (hx' : 0 ≤ x') (hy' : 0 ≤ y')
    (h : x.satMul y < T) (hlx : x < T → x' ≤ x) (hly : y < T → y' ≤ y) :
    x'.satMul y' ≤ x.satMul y := by
  rw [nonneg_iff] at hx hy hx' hy'
  rw [Int64.lt_iff_toInt_lt, toInt_satMul] at h
  rw [Int64.lt_iff_toInt_lt, Int64.le_iff_toInt_le] at hlx hly
  have hT := toInt_range T
  have hxy := Int.mul_nonneg hx hy
  rw [Int64.le_iff_toInt_le, toInt_satMul, toInt_satMul]
  suffices hle : x'.toInt * y'.toInt ≤ x.toInt * y.toInt by omega
  rcases Int.lt_or_eq_of_le hx with hxpos | hxzero
  · rcases Int.lt_or_eq_of_le hy with hypos | hyzero
    · have hxle : x.toInt ≤ x.toInt * y.toInt := le_mul_of_one_le_right hx hypos
      have hyle : y.toInt ≤ x.toInt * y.toInt := le_mul_of_one_le_left hy hxpos
      exact Int.mul_le_mul (hlx (by omega)) (hly (by omega)) hy' hx
    · have hzero : y'.toInt = 0 := by
        have := hly (by rw [← hyzero]; omega)
        omega
      rw [hzero, Int.mul_zero]
      exact hxy
  · have hzero : x'.toInt = 0 := by
      have := hlx (by rw [← hxzero]; omega)
      omega
    rw [hzero, Int.zero_mul]
    exact hxy

end Value

end Synthesis
