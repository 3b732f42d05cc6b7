import SdlSchema.Reader

/-!
# Decimal digits

Natural numbers and their digits, most significant first.  `digits` writes no
leading zero, except that zero itself is one digit.
-/

namespace SdlSchema.Decimal

abbrev Digit := Fin 10

namespace Digit

def toChar (d : Digit) : Char := Char.ofNat (48 + d.val)

def ofChar? (c : Char) : Option Digit :=
  if h : 48 ≤ c.toNat ∧ c.toNat < 58 then some ⟨c.toNat - 48, by omega⟩ else none

theorem ofChar?_toChar (d : Digit) : ofChar? (toChar d) = some d := by
  revert d; decide

end Digit

/-- Puts the digits of `n` in front of `tail`. -/
def digitsOnto (n : Nat) (tail : List Digit) : List Digit :=
  if h : n < 10 then ⟨n, h⟩ :: tail
  else digitsOnto (n / 10) (⟨n % 10, Nat.mod_lt _ (by decide)⟩ :: tail)
termination_by n

/-- The digits of a number, without leading zeros. -/
def digits (n : Nat) : List Digit := digitsOnto n []

/-- The number with the given digits. -/
def ofDigits (ds : List Digit) : Nat := ds.foldl (fun n d => 10 * n + d.val) 0

/-- The digits of `n` as text. -/
def natChars (n : Nat) : List Char := (digits n).map Digit.toChar

/-- An integer as text: digits, after a minus sign if it is negative. -/
def intChars : Int → List Char
  | .ofNat n => natChars n
  | .negSucc n => '-' :: natChars (n + 1)

/-! ## Reading -/

/-- The longest run of digits. -/
def readDigits : Reader Char (List Digit) := do
  let cs ← Reader.span fun c => (Digit.ofChar? c).isSome
  pure (cs.filterMap Digit.ofChar?)

/-- A run of at least one digit. -/
def readDigits₁ : Reader Char (Digit × List Digit) := do
  let d ← Reader.ofOption (Digit.ofChar? (← Reader.next))
  pure (d, ← readDigits)

end SdlSchema.Decimal
