import SdlSchema.Reader

/-!
# Escaped characters

The escapes that JSON strings and GraphQL strings share: single letters after
a backslash, and code points in hexadecimal, written as UTF-16 units of four
digits each.
-/

namespace SdlSchema.Escape

/-! ## Hexadecimal digits -/

/-- The value of a hexadecimal digit in either case. -/
def hexValue? (c : Char) : Option Nat :=
  let n := c.toNat
  if 48 ≤ n ∧ n < 58 then some (n - 48)
  else if 65 ≤ n ∧ n < 71 then some (n - 55)
  else if 97 ≤ n ∧ n < 103 then some (n - 87)
  else none

/-- The lower case digit of a number below sixteen. -/
def hexDigit (n : Nat) : Char := Char.ofNat (if n < 10 then 48 + n else 87 + n)

/-! ## Letters -/

/-- The character for which a letter after a backslash stands. -/
def ofLetter? : Char → Option Char
  | '"' => some '"'
  | '\\' => some '\\'
  | '/' => some '/'
  | 'b' => some '\x08'
  | 'f' => some '\x0c'
  | 'n' => some '\n'
  | 'r' => some '\r'
  | 't' => some '\t'
  | _ => none

/-! ## Code points -/

/-- The character with the given code point, unless that is a surrogate or too large. -/
def charOf? (n : Nat) : Option Char := if n.isValidChar then some (Char.ofNat n) else none

/-- The character whose code point has the given hexadecimal digits. -/
def charOfHex? (digits : List Nat) : Option Char :=
  charOf? (digits.foldl (fun n d => 16 * n + d) 0)

def isHighSurrogate (n : Nat) : Bool := 0xD800 ≤ n && n < 0xDC00

def isLowSurrogate (n : Nat) : Bool := 0xDC00 ≤ n && n < 0xE000

/-- The code point that a high and a low surrogate stand for. -/
def ofSurrogates (high low : Nat) : Nat := 0x10000 + (high - 0xD800) * 0x400 + (low - 0xDC00)

/-! ## Reading -/

def readHexDigit : Reader Char Nat := do
  Reader.ofOption (hexValue? (← Reader.next))

/-- A number of four digits. -/
def readUnit : Reader Char Nat := do
  let a ← readHexDigit
  let b ← readHexDigit
  let c ← readHexDigit
  let d ← readHexDigit
  pure (((a * 16 + b) * 16 + c) * 16 + d)

/-- The character whose first unit comes next; a high surrogate must have a low one behind a second
`\u`. -/
def readUnits : Reader Char Char := do
  let u ← readUnit
  if isHighSurrogate u then
    Reader.expect '\\'
    Reader.expect 'u'
    let v ← readUnit
    Reader.guard (isLowSurrogate v)
    Reader.ofOption (charOf? (ofSurrogates u v))
  else Reader.ofOption (charOf? u)

end SdlSchema.Escape
