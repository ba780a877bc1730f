import Synthesis.Cost.Basic

/-!
# Written costs

A cost has two texts. The exact one is the bit pattern of its double-precision format in sixteen
hexadecimal digits: 11 bits of exponent, biased by 1023, above 52 bits of fraction, with the leading
one left out. The one for people has a single decimal.
-/

set_option autoImplicit false

namespace Synthesis

namespace Cost

/-- The bit pattern of the double-precision format. The units lie 52 binary places to the right, so
`2 ^ e` units have the biased exponent `e - 52 + 1023`. The infinite cost is the power of two that
is one too large for a finite exponent, which is how the format writes infinity. -/
def bits (c : Cost) : Nat :=
  if c.units = 0 then 0
  else
    let exponent := c.units.log2
    let significand := c.units <<< (52 - exponent) >>> (exponent - 52)
    (exponent + 971) * unitsPerOne + (significand - unitsPerOne)

/-- The bit pattern in sixteen hexadecimal digits. -/
def hex (c : Cost) : String :=
  let digits := Nat.toDigits 16 c.bits
  String.ofList (List.replicate (16 - digits.length) '0' ++ digits)

/-- The cost rounded to one decimal, a tie to the even digit. -/
def text (c : Cost) : String :=
  if c = infinite then "inf"
  else
    let tenths := divNearest (c.units * 10) unitsPerOne
    toString (tenths / 10) ++ "." ++ toString (tenths % 10)

end Cost

end Synthesis
