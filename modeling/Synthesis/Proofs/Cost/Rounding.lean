import Synthesis.Cost.Basic

/-!
# Rounded sums are monotone

The only thing the search ever needs to know about its floating-point costs is that adding to a
tree does not make it cheaper, and that is not a property of sums but of *rounded* sums. They grow
with their summands (`add_le_add`), because

> **rounding is monotone** (`round_mono`).

Monotonicity is settled by the leading bit. Two numbers with the same number of bits are rounded
to multiples of the same spacing, where only the rounded quotient matters. Otherwise the power of
two in between separates the two roundings: rounding up goes at most to the next power of two
(`rounded_le_shiftLeft`), and rounding down never goes below the one before
(`shiftLeft_le_rounded`).
-/

set_option autoImplicit false

namespace Synthesis

namespace Cost

/-! ## Rounding is monotone -/

theorem divNearest_mono {n m : Nat} (h : n ≤ m) (d : Nat) : divNearest n d ≤ divNearest m d := by
  have hdiv : n / d ≤ m / d := Nat.div_le_div_right h
  by_cases heq : n / d = m / d
  · -- The quotients agree, so the remainders are in order.
    have hrest : n % d ≤ m % d := by
      have hn := Nat.div_add_mod n d
      have hm := Nat.div_add_mod m d
      rw [heq] at hn
      omega
    dsimp only [divNearest]
    rw [heq]
    split <;> split <;> omega
  · have hlow := div_le_divNearest m d
    have hhigh := divNearest_le_div_add_one n d
    omega

theorem rounded_le_shiftLeft (n : Nat) :
    divNearest n (spacing n) * spacing n ≤ 1 <<< (n.log2 + 1) := by
  have hsplit : n.log2 + 1 = (n.log2 + 1 - (n.log2 - 52)) + (n.log2 - 52) := by omega
  have hdiv : n / spacing n < 2 ^ (n.log2 + 1 - (n.log2 - 52)) := by
    rw [Nat.div_lt_iff_lt_mul (spacing_pos n), spacing, Nat.one_shiftLeft, ← Nat.pow_add, ← hsplit]
    exact Nat.lt_log2_self
  have hhigh := divNearest_le_div_add_one n (spacing n)
  rw [Nat.one_shiftLeft, hsplit, Nat.pow_add, ← Nat.one_shiftLeft (n.log2 - 52), ← spacing]
  exact Nat.mul_le_mul_right _ (by omega)

theorem shiftLeft_le_rounded {n : Nat} (hn : n ≠ 0) :
    1 <<< n.log2 ≤ divNearest n (spacing n) * spacing n := by
  have hsplit : n.log2 = (n.log2 - (n.log2 - 52)) + (n.log2 - 52) := by omega
  have hdiv : 2 ^ (n.log2 - (n.log2 - 52)) ≤ n / spacing n := by
    rw [Nat.le_div_iff_mul_le (spacing_pos n), spacing, Nat.one_shiftLeft, ← Nat.pow_add, ← hsplit]
    exact Nat.log2_self_le hn
  have hlow := div_le_divNearest n (spacing n)
  calc 1 <<< n.log2
      = 2 ^ (n.log2 - (n.log2 - 52)) * 2 ^ (n.log2 - 52) := by
        rw [← Nat.pow_add, ← hsplit, Nat.one_shiftLeft]
    _ ≤ divNearest n (spacing n) * spacing n := by
        rw [← Nat.one_shiftLeft (n.log2 - 52), ← spacing]
        exact Nat.mul_le_mul_right _ (by omega)

theorem round_zero : round 0 = 0 := round_of_lt (by decide)

theorem round_mono {n m : Nat} (h : n ≤ m) : round n ≤ round m := by
  by_cases hn : n = 0
  · rw [hn, round_zero]
    exact Nat.zero_le _
  have hm : m ≠ 0 := by omega
  suffices hle : divNearest n (spacing n) * spacing n ≤ divNearest m (spacing m) * spacing m by
    unfold round
    omega
  have hlog : n.log2 ≤ m.log2 := (Nat.le_log2 hm).2 (Nat.le_trans (Nat.log2_self_le hn) h)
  -- Either a power of two lies between the numbers, and neither is rounded past it, or they are
  -- rounded to multiples of the same spacing.
  rcases Nat.lt_or_eq_of_le hlog with hlt | heq
  · calc divNearest n (spacing n) * spacing n
        ≤ 1 <<< (n.log2 + 1) := rounded_le_shiftLeft n
      _ ≤ 1 <<< m.log2 := by
          rw [Nat.one_shiftLeft, Nat.one_shiftLeft]
          exact Nat.pow_le_pow_right Nat.two_pos hlt
      _ ≤ divNearest m (spacing m) * spacing m := shiftLeft_le_rounded hm
  · have hspacing : spacing n = spacing m := by rw [spacing, spacing, heq]
    rw [hspacing]
    exact Nat.mul_le_mul_right _ (divNearest_mono h _)

/-! ## Sums of costs -/

variable {a b c d : Cost}

theorem le_refl (a : Cost) : a ≤ a := Nat.le_refl _

theorem le_trans (h : a ≤ b) (h' : b ≤ c) : a ≤ c := Nat.le_trans h h'

theorem not_lt : ¬ a < b ↔ b ≤ a := Nat.not_lt

theorem zero_le (a : Cost) : 0 ≤ a := Nat.zero_le _

theorem add_le_add (hac : a ≤ c) (hbd : b ≤ d) : a + b ≤ c + d := by
  rw [le_iff, units_add, units_add]
  exact round_mono (Nat.add_le_add hac hbd)

end Cost

end Synthesis
