/-!
# Values

Programs compute on 64-bit two's complement integers. Evaluation wraps around on overflow, which is
the arithmetic of `Int64` itself; upper bounds saturate instead, so that a bound that no longer fits
stays the largest number there is. The saturating operations are the exact ones on `Int`, clamped
into the 64-bit range once.
-/

set_option autoImplicit false

namespace Synthesis

/-- The numbers programs compute with. -/
abbrev Value := Int64

namespace Value

/-- The sum, or the end of the range it overflows. -/
def satAdd (a b : Value) : Value := .ofIntClamp (a.toInt + b.toInt)

/-- The product, or the end of the range it overflows. -/
def satMul (a b : Value) : Value := .ofIntClamp (a.toInt * b.toInt)

/-- The magnitude, where that of the smallest number is the largest number. -/
def satAbs (a : Value) : Value := .ofIntClamp a.toInt.natAbs

/-- The decimal text. -/
def text (a : Value) : String := toString a.toInt

/-- Clamping keeps what fits and moves the rest to the nearer end of the range. -/
theorem toInt_ofIntClamp (i : Int) :
    (Int64.ofIntClamp i).toInt = max Int64.minValue.toInt (min i Int64.maxValue.toInt) := by
  have hlow : Int64.minValue.toInt = -2 ^ 63 := Int64.toInt_minValue
  have hhigh : Int64.maxValue.toInt = 2 ^ 63 - 1 := Int64.toInt_maxValue
  unfold Int64.ofIntClamp
  split
  · split
    · rw [Int64.toInt_ofIntLE]
      omega
    · omega
  · omega

end Value

end Synthesis
