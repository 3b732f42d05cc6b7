import SdlSchema.Binary64.Nearest

/-!
# Numbers in configuration sources

What counts as a number.  Of its value no setting makes use, but integers must
fit into so many bits, and some sources take only finite floats.
-/

namespace SdlSchema.Cli.Numeral

/-! ## Integers -/

def areDigits (cs : List Char) : Bool := !cs.isEmpty && cs.all Char.isDigit

def digitsValue (cs : List Char) : Nat := cs.foldl (fun n c => 10 * n + (c.toNat - 48)) 0

def dropPlus : List Char → List Char
  | '+' :: cs => cs
  | cs => cs

def dropSign : List Char → List Char
  | '-' :: cs => cs
  | cs => dropPlus cs

/-- A natural number of so many bits, possibly after a plus sign. -/
def natural? (bits : Nat) (cs : List Char) : Option Nat :=
  let ds := dropPlus cs
  if areDigits ds && digitsValue ds < Nat.pow 2 bits then some (digitsValue ds) else none

/-- An integer of so many bits, which has a sign of its own only if it is negative. -/
def isInteger (bits : Nat) : List Char → Bool
  | '-' :: ds => areDigits ds && digitsValue ds ≤ Nat.pow 2 (bits - 1)
  | cs => (natural? bits cs).isSome

/-! ## Floats -/

/-- The power of ten that is written behind digits: nothing, or an exponent with its mark. -/
def exponent? : List Char → Option Int
  | [] => some 0
  | c :: cs =>
    let digits := dropSign cs
    if (c = 'e' || c = 'E') && areDigits digits then
      let n : Int := digitsValue digits
      some (if cs.head? = some '-' then -n else n)
    else none

/-- A coefficient and a power of ten: digits, a point that may stand anywhere among them or be
missing, and possibly an exponent. -/
def decimal? (cs : List Char) : Option (Nat × Int) :=
  let whole := cs.takeWhile Char.isDigit
  let (fraction, rest) :=
    match cs.dropWhile Char.isDigit with
    | '.' :: rest => (rest.takeWhile Char.isDigit, rest.dropWhile Char.isDigit)
    | rest => ([], rest)
  if whole.isEmpty && fraction.isEmpty then none
  else (exponent? rest).map fun e => (digitsValue (whole ++ fraction), e - fraction.length)

/-- A decimal that has a point. -/
def hasPoint (cs : List Char) : Bool := cs.contains '.' && (decimal? (dropSign cs)).isSome

/-- A decimal near which there is a finite double. -/
def isFinite (cs : List Char) : Bool :=
  match decimal? (dropSign cs) with
  | some (coefficient, scale) => (Binary64.nearest? false coefficient scale).isSome
  | none => false

end SdlSchema.Cli.Numeral
