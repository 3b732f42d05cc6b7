import SdlSchema.Decimal.Digits

/-!
# Numerals

A number as it is written: sign, whole part, fraction and exponent.  The
fields leave no room for an ill-formed numeral, so a `Numeral` is the same
thing as a text of the grammar

    -?(0|[1-9][0-9]*)(\.[0-9]+)?([eE][+-]?[0-9]+)?

which GraphQL and JSON share.  `chars` gives the text back letter by letter.
-/

namespace SdlSchema.Decimal

/-- The sign of an exponent, as far as it is written. -/
inductive ExponentSign where
  | bare
  | plus
  | minus
  deriving DecidableEq, Repr

/-- The mark `e` or `E`, a sign, and at least one digit. -/
structure Exponent where
  upper : Bool
  sign : ExponentSign
  first : Digit
  more : List Digit
  deriving DecidableEq, Repr

/-- An empty `fraction` stands for a number without a point. -/
structure Numeral where
  negative : Bool
  whole : Nat
  fraction : List Digit
  exponent : Option Exponent
  deriving DecidableEq, Repr

/-! ## The text -/

namespace ExponentSign

def chars : ExponentSign → List Char
  | bare => []
  | plus => ['+']
  | minus => ['-']

end ExponentSign

namespace Exponent

def chars (e : Exponent) : List Char :=
  (if e.upper then 'E' else 'e') :: e.sign.chars ++ (e.first :: e.more).map Digit.toChar

/-- The power of ten that the exponent stands for. -/
def value (e : Exponent) : Int :=
  let n : Int := ofDigits (e.first :: e.more)
  match e.sign with
  | .minus => -n
  | _ => n

end Exponent

namespace Numeral

def chars (n : Numeral) : List Char :=
  (if n.negative then ['-'] else []) ++ natChars n.whole ++
    (match n.fraction with
      | [] => []
      | ds => '.' :: ds.map Digit.toChar) ++
    (match n.exponent with
      | none => []
      | some e => e.chars)

/-- The text of a numeral, exactly as it was read. -/
def text (n : Numeral) : String := String.ofList n.chars

/-! ## The value

The value is `coefficient` times ten to the power `scale`, with the sign. -/

/-- Neither a fraction nor an exponent is written. -/
def isIntegral (n : Numeral) : Bool := n.fraction.isEmpty && n.exponent.isNone

/-- The whole part and the fraction read as one number. -/
def coefficient (n : Numeral) : Nat :=
  n.whole * Nat.pow 10 n.fraction.length + ofDigits n.fraction

/-- The power of ten that belongs to the coefficient. -/
def scale (n : Numeral) : Int :=
  (match n.exponent with
    | none => 0
    | some e => e.value) - n.fraction.length

/-- The signed whole part. -/
def integer (n : Numeral) : Int := if n.negative then -(n.whole : Int) else n.whole

/-! ## Reading -/

/-- The whole part whose first digit has been read: a single zero, or digits that do not start with
zero. -/
def readWhole (first : Digit) : Reader Char Nat := do
  if first = 0 then pure 0 else pure (ofDigits (first :: (← readDigits)))

/-- A point with digits behind it, or nothing. -/
def readFraction : Reader Char (List Digit) := do
  if ← Reader.accept '.' then
    let (d, ds) ← readDigits₁
    pure (d :: ds)
  else pure []

def readSign : Reader Char ExponentSign := do
  if ← Reader.accept '+' then pure .plus
  else if ← Reader.accept '-' then pure .minus
  else pure .bare

/-- An exponent with its mark, or nothing. -/
def readExponent : Reader Char (Option Exponent) := do
  let upper ← Reader.accept 'E'
  let lower ← if upper then pure false else Reader.accept 'e'
  if upper || lower then
    let sign ← readSign
    let (d, ds) ← readDigits₁
    pure (some ⟨upper, sign, d, ds⟩)
  else pure none

/-- The longest numeral that starts with the given character, which has been read. -/
def readAfter (c : Char) : Reader Char Numeral := do
  let negative := c = '-'
  let d ← Reader.ofOption (Digit.ofChar? (← if negative then Reader.next else pure c))
  let whole ← readWhole d
  let fraction ← readFraction
  let exponent ← readExponent
  pure ⟨negative, whole, fraction, exponent⟩

/-- The longest numeral at the front. -/
def read : Reader Char Numeral := do readAfter (← Reader.next)

def ofChars? (cs : List Char) : Option Numeral := read.readAll? cs

/-- The numeral with the given text, which is all of it. -/
def ofText? (s : String) : Option Numeral := ofChars? s.toList

end Numeral

end SdlSchema.Decimal
