import Synthesis.Proofs.Cost.Rounding

/-!
# Whole numbers as costs

Rounded sums can stand still: past 2 to the power 53, adding 1 changes nothing. Up to there whole
numbers are exact, and this is what a cost is worth as a measure of progress,

> **what has at least `m` on one side and `n` on the other has at least `m + n` together**
> (`AtLeast.add`), until the limit is reached.
-/

set_option autoImplicit false

namespace Synthesis

namespace Cost

/-- Up to 2 to the power 53 all whole numbers are representable. -/
def wholeLimit : Nat := 0x20000000000000

/-- The cost nearest to a whole number. -/
def ofWhole (n : Nat) : Cost := nearest (n * unitsPerOne)

/-- The significand of a whole number has at most 53 bits, and moves to the left by the others. -/
theorem exists_shiftLeft_whole {n : Nat} (hpos : n ≠ 0) (h : n ≤ wholeLimit) :
    ∃ k e, unitsPerOne ≤ k ∧ k ≤ 2 * unitsPerOne ∧ k <<< e = n * unitsPerOne := by
  have hlow : 2 ^ n.log2 ≤ n := Nat.log2_self_le hpos
  have hhigh : n < 2 ^ (n.log2 + 1) := Nat.lt_log2_self
  by_cases hlog : n.log2 ≤ 52
  · have hsplit : 52 - n.log2 + n.log2 = 52 := Nat.sub_add_cancel hlog
    refine ⟨n * 2 ^ (52 - n.log2), n.log2, ?_, ?_, ?_⟩
    · calc unitsPerOne = 2 ^ n.log2 * 2 ^ (52 - n.log2) := by
            rw [← Nat.pow_add, Nat.add_comm, hsplit]
            rfl
        _ ≤ n * 2 ^ (52 - n.log2) := Nat.mul_le_mul_right _ hlow
    · calc n * 2 ^ (52 - n.log2) ≤ 2 ^ (n.log2 + 1) * 2 ^ (52 - n.log2) :=
            Nat.mul_le_mul_right _ (Nat.le_of_lt hhigh)
        _ = 2 * unitsPerOne := by
            rw [← Nat.pow_add, Nat.add_right_comm, Nat.add_comm n.log2, hsplit]
            rfl
    · rw [Nat.shiftLeft_eq, Nat.mul_assoc, ← Nat.pow_add, hsplit]
      rfl
  · -- Only the limit itself has more bits.
    have hlimit : 2 ^ 53 ≤ n :=
      Nat.le_trans (Nat.pow_le_pow_right Nat.two_pos (Nat.lt_of_not_le hlog)) hlow
    obtain rfl : n = wholeLimit := Nat.le_antisymm h hlimit
    exact ⟨2 * unitsPerOne, 52, by decide, Nat.le_refl _, rfl⟩

theorem round_whole {n : Nat} (h : n ≤ wholeLimit) : round (n * unitsPerOne) = n * unitsPerOne := by
  by_cases hpos : n = 0
  · rw [hpos, Nat.zero_mul, round_zero]
  · obtain ⟨k, e, hlow, hhigh, hk⟩ := exists_shiftLeft_whole hpos h
    have hover : n * unitsPerOne ≤ overflow := by
      rw [overflow, Nat.shiftLeft_eq, Nat.mul_comm]
      refine Nat.mul_le_mul_left unitsPerOne (Nat.le_trans h ?_)
      have hpow : 2 ^ 53 ≤ 2 ^ exponentLimit := Nat.pow_le_pow_right Nat.two_pos (by decide)
      exact hpow
    rw [← hk, round_shiftLeft hlow hhigh, hk]
    exact Nat.min_eq_left hover

@[simp] theorem units_ofWhole {n : Nat} (h : n ≤ wholeLimit) :
    (ofWhole n).units = n * unitsPerOne :=
  round_whole h

/-- The cost is at least the whole number, or the limit if that is less. -/
def AtLeast (n : Nat) (a : Cost) : Prop := min n wholeLimit * unitsPerOne ≤ a.units

theorem atLeast_zero (a : Cost) : AtLeast 0 a := by
  unfold AtLeast
  simp

theorem AtLeast.add {m n : Nat} {a b : Cost} (ha : AtLeast m a) (hb : AtLeast n b) :
    AtLeast (m + n) (a + b) := by
  unfold AtLeast at *
  calc min (m + n) wholeLimit * unitsPerOne
      = round (min (m + n) wholeLimit * unitsPerOne) :=
        (round_whole (Nat.min_le_right _ _)).symm
    _ ≤ round (a.units + b.units) := by
        apply round_mono
        refine Nat.le_trans ?_ (Nat.add_le_add ha hb)
        rw [← Nat.add_mul]
        apply Nat.mul_le_mul_right
        omega

theorem atLeast_ofTenths {n : Nat} (h : 10 ≤ n) : AtLeast 1 (ofTenths n) := by
  have hten : unitsPerOne ≤ divNearest (n * unitsPerOne) 10 := by
    refine Nat.le_trans ?_ (div_le_divNearest _ _)
    rw [Nat.le_div_iff_mul_le (by decide), Nat.mul_comm]
    exact Nat.mul_le_mul_right _ h
  calc min 1 wholeLimit * unitsPerOne = round unitsPerOne := (round_of_lt (by decide)).symm
    _ ≤ round (divNearest (n * unitsPerOne) 10) := round_mono hten

end Cost

end Synthesis
