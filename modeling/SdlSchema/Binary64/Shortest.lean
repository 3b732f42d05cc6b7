import SdlSchema.Binary64.Nearest

/-!
# The shortest decimal

The decimals that round to a given double fill an interval, and a decimal with
few digits is a multiple of a large power of ten.  So the shortest decimal is
found on the coarsest decimal grid that has a point in the interval; if it has
two, the nearer one is taken, and the even one if both are equally near.

All magnitudes are measured in multiples of 2⁻¹⁰⁷⁵, in which the double itself
and both ends of its interval are natural numbers.
-/

namespace SdlSchema.Binary64

/-- The decimals that round to one magnitude: those from `low` to `high`, the ends counting only if
`closed`. -/
structure Interval where
  low : Nat
  middle : Nat
  high : Nat
  closed : Bool

namespace Interval

/-- From half way to the magnitude below to half way to the one above. -/
def ofOrdinal (i : Nat) : Interval where
  low := units (i - 1) + units i
  middle := 2 * units i
  high := units i + units (i + 1)
  closed := i % 2 = 0

/-- Tells whether `x / b` lies in the interval. -/
def holds (I : Interval) (x b : Nat) : Bool :=
  if I.closed then I.low * b ≤ x && x ≤ I.high * b
  else I.low * b < x && x < I.high * b

/-- The multiple of `a / b` in the interval that is nearest to the middle. -/
def nearestMultiple? (I : Interval) (a b : Nat) : Option Nat :=
  let d := I.middle * b / a
  let r := 2 * (I.middle * b % a)
  match I.holds (d * a) b, I.holds ((d + 1) * a) b with
  | true, true => some (if r < a then d else if a < r then d + 1 else d + d % 2)
  | true, false => some d
  | false, true => some (d + 1)
  | false, false => none

/-- The point of the grid of step `10 ^ k`. -/
def gridPoint? (I : Interval) : Int → Option Nat
  | .ofNat k => I.nearestMultiple? (Nat.pow 10 k * Nat.pow 2 1075) 1
  | .negSucc k => I.nearestMultiple? (Nat.pow 2 1075) (Nat.pow 10 (k + 1))

/-- The point on the first of the grids `10 ^ k`, `10 ^ (k - 1)`, … that has one, with the power of
ten.  At most `n + 1` grids are tried. -/
def coarsest (I : Interval) (k : Int) : Nat → Nat × Int
  | 0 => ((I.gridPoint? k).getD 0, k)
  | n + 1 =>
    match I.gridPoint? k with
    | some d => (d, k)
    | none => I.coarsest (k - 1) n

end Interval

/-- A positive decimal with the least possible number of digits: `digits` times `10 ^ scale`. -/
structure Shortest where
  digits : List Decimal.Digit
  scale : Int

/-- The shortest decimal that rounds to a magnitude.  No power of ten with more digits than the
upper end of the interval has a multiple inside, and on the grid `10 ^ (-1074)` lies the magnitude
itself, so the search starts and ends in time. -/
def shortest (x : Binary64) : Shortest :=
  let I := Interval.ofOrdinal x.ordinal
  let k := (Decimal.digits (I.high / Nat.pow 2 1075)).length
  let (d, scale) := I.coarsest k (k + 1074)
  ⟨Decimal.digits d, scale⟩

/-! ## Layout -/

/-- Where the point goes and which exponents are written out. -/
structure Layout where
  /-- The least decimal exponent that is written positionally. -/
  least : Int
  /-- The greatest decimal exponent that is written positionally. -/
  greatest : Int

/-- Exponents from −5 to 15 are written positionally. -/
def layout : Layout := ⟨-5, 15⟩

open Decimal (Digit natChars)

/-- A point after the first `n` digits, with zeros where digits are missing. -/
def positional (ds : List Digit) (n : Int) : List Char :=
  let cs := ds.map Digit.toChar
  match n with
  | .ofNat n =>
    if n = 0 then '0' :: '.' :: cs
    else if cs.length ≤ n then cs ++ List.replicate (n - cs.length) '0' ++ ['.', '0']
    else cs.take n ++ '.' :: cs.drop n
  | .negSucc n => '0' :: '.' :: (List.replicate (n + 1) '0' ++ cs)

/-- A point after the first digit, unless that is the only one, and a signed exponent. -/
def scientific (ds : List Digit) (e : Int) : List Char :=
  let cs := ds.map Digit.toChar
  let mantissa :=
    match cs with
    | c :: c' :: more => c :: '.' :: c' :: more
    | _ => cs
  mantissa ++ 'e' ::
    match e with
    | .ofNat n => '+' :: natChars n
    | .negSucc n => '-' :: natChars (n + 1)

/-- A positive decimal in the notation that the layout gives it. -/
def Layout.chars (l : Layout) (s : Shortest) : List Char :=
  let e := s.digits.length + s.scale - 1
  if l.least ≤ e ∧ e ≤ l.greatest then positional s.digits (e + 1) else scientific s.digits e

/-- A double as text: `0.0` for zero, else the shortest decimal, after a minus sign if the number is
negative. -/
def chars (x : Binary64) : List Char :=
  (if x.negative then ['-'] else []) ++
    if x.isZero then ['0', '.', '0'] else layout.chars x.shortest

end SdlSchema.Binary64
