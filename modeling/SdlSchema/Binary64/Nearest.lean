import SdlSchema.Binary64.Basic
import SdlSchema.Decimal.Numeral

/-!
# The nearest double

A quotient of naturals is rounded to the nearest magnitude, a tie to the even
ordinal.  The rounding is exact: it divides once, by a denominator that is
scaled to the block in which the quotient lies.  Rounding up past the end of a
block gives the first ordinal of the next one, so no carry has to be looked at.
-/

namespace SdlSchema

/-- The natural number nearest to `a / b`; a half goes to the even neighbour. -/
def roundDiv (a b : Nat) : Nat :=
  let q := a / b
  let r := 2 * (a % b)
  if r < b then q
  else if b < r then q + 1
  else q + q % 2

namespace Binary64

/-- The ordinal of the magnitude nearest to `a / b`, where the magnitudes go on past the finite ones
in the same way. -/
def nearestOrdinal (a b : Nat) : Nat :=
  let a' := a * Nat.pow 2 1074
  let n := (a' / b).log2 - 52
  n * block + roundDiv a' (b * Nat.pow 2 n)

/-- The double nearest to `coefficient * 10 ^ scale`, or nothing if that is not finite.  A number of
more than 310 digits before the point is too large, and one that starts more than 330 digits after
the point is nearest to zero, whatever its digits are. -/
def nearest? (negative : Bool) (coefficient : Nat) (scale : Int) : Option Binary64 :=
  let leading := (Decimal.digits coefficient).length + scale
  if coefficient = 0 ∨ leading < -330 then some (zero negative)
  else if 310 < leading then none
  else match scale with
    | .ofNat k => ofOrdinal? negative (nearestOrdinal (coefficient * Nat.pow 10 k) 1)
    | .negSucc k => ofOrdinal? negative (nearestOrdinal coefficient (Nat.pow 10 (k + 1)))

/-- The double nearest to a numeral; a zero keeps the sign that is written. -/
def ofNumeral? (n : Decimal.Numeral) : Option Binary64 :=
  nearest? n.negative n.coefficient n.scale

end Binary64

end SdlSchema
