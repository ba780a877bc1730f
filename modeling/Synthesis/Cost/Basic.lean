/-!
# Costs

The search orders trees by cost, and a cost is a sum of decimal weights such as 1.1 taken in binary
floating point: 53 significant bits, every sum rounded to the nearest representable number and ties
to the even one. Rounding is visible. Two trees with the same operators can differ in cost by one
unit in the last place, because the additions happen in the order of the children, and then one of
them really comes first.

All weights are multiples of `2 ^ -52` below 2, and sums of multiples of `2 ^ -52` stay multiples of
it, so a cost is a natural number of these units and no smaller digit is ever needed. The type
carries the proof that its number is representable, hence rounding is the identity on it.

The largest finite number is just below `2 ^ 1024`; a sum that rounds to `2 ^ 1024` or more is
`infinite`, which absorbs everything.
-/

set_option autoImplicit false

namespace Synthesis

namespace Cost

/-! ## Rounding to 53 significant bits -/

/-- The number of units in 1, which is 2 to the power 52. -/
def unitsPerOne : Nat := 0x10000000000000

/-- Finite costs are below 2 to this power. -/
def exponentLimit : Nat := 1024

/-- The number of units at which the finite costs end. -/
def overflow : Nat := unitsPerOne <<< exponentLimit

/-- The distance between neighbouring representable numbers around `n`: 1 as long as `n` has at most
53 bits, and doubled by each further bit. -/
def spacing (n : Nat) : Nat := 1 <<< (n.log2 - 52)

/-- The quotient rounded to the nearest integer, ties to the even one. -/
def divNearest (n d : Nat) : Nat :=
  let quotient := n / d
  let rest := n % d
  if 2 * rest < d ∨ (2 * rest = d ∧ quotient % 2 = 0) then quotient else quotient + 1

/-- The representable number of units nearest to `n`. -/
def round (n : Nat) : Nat := min (divNearest n (spacing n) * spacing n) overflow

/-! ### Rounding twice is rounding once -/

theorem spacing_pos (n : Nat) : 0 < spacing n := by
  rw [spacing, Nat.one_shiftLeft]
  exact Nat.two_pow_pos _

theorem div_le_divNearest (n d : Nat) : n / d ≤ divNearest n d := by
  dsimp only [divNearest]
  split <;> omega

theorem divNearest_le_div_add_one (n d : Nat) : divNearest n d ≤ n / d + 1 := by
  dsimp only [divNearest]
  split <;> omega

/-- A multiple of the divisor is not moved. -/
theorem divNearest_mul_right (k : Nat) {d : Nat} (hd : 0 < d) : divNearest (k * d) d = k := by
  simp [divNearest, hd]

/-- Below 2 all numbers of units are representable. -/
theorem spacing_of_lt {n : Nat} (h : n < 2 * unitsPerOne) : spacing n = 1 := by
  unfold spacing
  by_cases hn : n = 0
  · simp [hn]
  · have : n.log2 < 53 := (Nat.log2_lt hn).2 h
    rw [Nat.sub_eq_zero_of_le (by omega), Nat.shiftLeft_zero]

/-- From 2 onwards, a number divided by the spacing has exactly 53 bits. -/
theorem div_spacing_bounds {n : Nat} (h : 2 * unitsPerOne ≤ n) :
    unitsPerOne ≤ n / spacing n ∧ n / spacing n < 2 * unitsPerOne := by
  have hn : n ≠ 0 := by
    unfold unitsPerOne at h
    omega
  have hlog : 53 ≤ n.log2 := (Nat.le_log2 hn).2 h
  have hlow : 2 ^ n.log2 ≤ n := Nat.log2_self_le hn
  have hhigh : n < 2 ^ (n.log2 + 1) := Nat.lt_log2_self
  rw [spacing, Nat.one_shiftLeft]
  constructor
  · show 2 ^ 52 ≤ _
    rw [Nat.le_div_iff_mul_le (Nat.two_pow_pos _), ← Nat.pow_add]
    have : 52 + (n.log2 - 52) = n.log2 := by omega
    rwa [this]
  · show _ < 2 ^ 53
    rw [Nat.div_lt_iff_lt_mul (Nat.two_pow_pos _), ← Nat.pow_add]
    have : 53 + (n.log2 - 52) = n.log2 + 1 := by omega
    rwa [this]

/-- Shifting a number of exactly 53 bits shifts the spacing around it. -/
theorem spacing_shiftLeft {k : Nat} (hlow : unitsPerOne ≤ k) (hhigh : k < 2 * unitsPerOne)
    (e : Nat) : spacing (k <<< e) = 1 <<< e := by
  have hk : k ≠ 0 := by
    unfold unitsPerOne at hlow
    omega
  have hne : k * 2 ^ e ≠ 0 := Nat.mul_ne_zero hk (Nat.ne_of_gt (Nat.two_pow_pos e))
  have h : (k * 2 ^ e).log2 = 52 + e := by
    apply Nat.le_antisymm
    · have : k * 2 ^ e < 2 ^ (53 + e) := by
        rw [Nat.pow_add]
        exact (Nat.mul_lt_mul_right (Nat.two_pow_pos e)).2 hhigh
      have := (Nat.log2_lt hne).2 this
      omega
    · rw [Nat.le_log2 hne, Nat.pow_add]
      exact Nat.mul_le_mul_right _ hlow
  rw [spacing, Nat.shiftLeft_eq k, h, Nat.add_sub_cancel_left]

/-- Below 2 nothing is rounded. -/
theorem round_of_lt {n : Nat} (h : n < 2 * unitsPerOne) : round n = n := by
  have hover : 2 * unitsPerOne ≤ overflow := by
    have : 2 ^ 1 ≤ 2 ^ exponentLimit := Nat.pow_le_pow_right Nat.two_pos (by decide)
    rw [overflow, Nat.shiftLeft_eq, Nat.mul_comm]
    exact Nat.mul_le_mul_left unitsPerOne this
  have := divNearest_mul_right n Nat.one_pos
  rw [Nat.mul_one] at this
  unfold round
  rw [spacing_of_lt h, this, Nat.mul_one]
  omega

/-- A shifted number of at most 53 bits is representable. -/
theorem round_shiftLeft {k : Nat} (hlow : unitsPerOne ≤ k) (hhigh : k ≤ 2 * unitsPerOne) (e : Nat) :
    round (k <<< e) = min (k <<< e) overflow := by
  have exact_of_lt {k : Nat} (hlow : unitsPerOne ≤ k) (hhigh : k < 2 * unitsPerOne) (e : Nat) :
      round (k <<< e) = min (k <<< e) overflow := by
    rw [round, spacing_shiftLeft hlow hhigh, Nat.shiftLeft_eq k, Nat.one_shiftLeft,
      divNearest_mul_right _ (Nat.two_pow_pos _)]
  by_cases h : k = 2 * unitsPerOne
  · -- The next power of two is the smallest number of 53 bits, shifted once more.
    have : k <<< e = unitsPerOne <<< (e + 1) := by
      rw [h, Nat.shiftLeft_eq, Nat.shiftLeft_eq, Nat.pow_succ]
      ac_rfl
    rw [this]
    exact exact_of_lt Nat.le.refl (by decide) (e + 1)
  · exact exact_of_lt hlow (by omega) e

theorem round_overflow : round overflow = overflow := by
  have := round_shiftLeft Nat.le.refl (Nat.le_mul_of_pos_left unitsPerOne Nat.two_pos) exponentLimit
  rwa [← overflow, Nat.min_self] at this

theorem round_round (n : Nat) : round (round n) = round n := by
  by_cases h : n < 2 * unitsPerOne
  · rw [round_of_lt h, round_of_lt h]
  · -- The rounded quotient has 53 bits, or it is the next power of two.
    have hbounds := div_spacing_bounds (Nat.le_of_not_lt h)
    have hlow := div_le_divNearest n (spacing n)
    have hhigh := divNearest_le_div_add_one n (spacing n)
    have hround : round (divNearest n (spacing n) * spacing n) =
        min (divNearest n (spacing n) * spacing n) overflow := by
      have := round_shiftLeft (k := divNearest n (spacing n)) (by omega) (by omega) (n.log2 - 52)
      rwa [Nat.shiftLeft_eq, ← Nat.one_shiftLeft, ← spacing] at this
    rcases Nat.le_total (divNearest n (spacing n) * spacing n) overflow with hle | hle
    · have : round n = divNearest n (spacing n) * spacing n := Nat.min_eq_left hle
      rw [this, hround, Nat.min_eq_left hle]
    · have : round n = overflow := Nat.min_eq_right hle
      rw [this, round_overflow]

end Cost

/-! ## The type -/

/-- A non-negative number of 53 significant bits, counted in units of `2 ^ -52`. -/
structure Cost where
  units : Nat
  /-- Rounding leaves the number as it is. -/
  representable : Cost.round units = units
  deriving DecidableEq

namespace Cost

/-- The cost nearest to a number of units. -/
def nearest (n : Nat) : Cost := ⟨round n, round_round n⟩

/-- The cost nearest to `n / 10`, where no tie can occur because the units are even in number. -/
def ofTenths (n : Nat) : Cost := nearest (divNearest (n * unitsPerOne) 10)

/-- What a sum becomes that leaves the range of finite costs. -/
def infinite : Cost := ⟨overflow, round_overflow⟩

instance : Zero Cost := ⟨⟨0, round_of_lt (by decide)⟩⟩

/-- The rounded sum. -/
instance : Add Cost := ⟨fun a b => nearest (a.units + b.units)⟩

instance : LE Cost := ⟨fun a b => a.units ≤ b.units⟩

instance : LT Cost := ⟨fun a b => a.units < b.units⟩

instance (a b : Cost) : Decidable (a ≤ b) := inferInstanceAs (Decidable (a.units ≤ b.units))

instance (a b : Cost) : Decidable (a < b) := inferInstanceAs (Decidable (a.units < b.units))

theorem le_iff {a b : Cost} : a ≤ b ↔ a.units ≤ b.units := Iff.rfl

theorem lt_iff {a b : Cost} : a < b ↔ a.units < b.units := Iff.rfl

@[simp] theorem units_zero : (0 : Cost).units = 0 := rfl

@[simp] theorem units_add (a b : Cost) : (a + b).units = round (a.units + b.units) := rfl

theorem ext_units {a b : Cost} (h : a.units = b.units) : a = b := by
  cases a
  cases b
  simp only at h
  simp [h]

/-- Nothing is lost by adding zero, on either side. -/
@[simp] theorem zero_add (a : Cost) : 0 + a = a :=
  ext_units (by simp [a.representable])

@[simp] theorem add_zero (a : Cost) : a + 0 = a :=
  ext_units (by simp [a.representable])

end Cost

end Synthesis
