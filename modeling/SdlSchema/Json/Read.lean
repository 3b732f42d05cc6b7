import SdlSchema.Json.Text

/-!
# Reading JSON

`Json.ofText?` reads a whole text.  An integer between −2⁶³ and 2⁶⁴ stays one;
every other number, and minus zero, is read as the nearest double, and a
number beyond the doubles makes the text unreadable.
-/

namespace SdlSchema

namespace Number

/-- The number that a numeral in a text stands for. -/
def ofNumeral? (n : Decimal.Numeral) : Option Number :=
  let fits : Bool :=
    if n.negative then 0 < n.whole && n.whole ≤ Nat.pow 2 63 else n.whole < Nat.pow 2 64
  if n.isIntegral && fits then some (.int n.integer)
  else (Binary64.ofNumeral? n).map .float

end Number

namespace Json

/-! ## Tokens -/

def isBlank (c : Char) : Bool := c = ' ' || c = '\t' || c = '\n' || c = '\r'

def skipBlanks : Reader Char Unit := do
  let _ ← Reader.span isBlank
  pure ()

/-- Drops exactly the given characters. -/
def expectAll : List Char → Reader Char Unit
  | [] => pure ()
  | c :: cs => do
    Reader.expect c
    expectAll cs

/-- The character for which an escape stands, after its backslash. -/
def readEscape : Reader Char Char := do
  let c ← Reader.next
  if c = 'u' then Escape.readUnits else Reader.ofOption (Escape.ofLetter? c)

/-- The rest of a string, after its opening quote. -/
def readString : Reader Char String := do
  let cs ← Reader.upTo (· = '"') fun c =>
    if c = '\\' then readEscape
    else do
      Reader.guard (0x20 ≤ c.toNat)
      pure c
  pure (String.ofList cs)

/-! ## Values -/

/-- A value that nests at most `depth` containers. -/
def readValue : Nat → Reader Char Json
  | 0 => Reader.fail
  | depth + 1 =>
    let element : Reader Char Json := do
      skipBlanks
      let v ← readValue depth
      skipBlanks
      pure v
    let member : Reader Char (String × Json) := do
      skipBlanks
      Reader.expect '"'
      let k ← readString
      skipBlanks
      Reader.expect ':'
      pure (k, ← element)
    do
      match ← Reader.peek? with
      | some 'n' => do
        expectAll ['n', 'u', 'l', 'l']
        pure null
      | some 't' => do
        expectAll ['t', 'r', 'u', 'e']
        pure (bool true)
      | some 'f' => do
        expectAll ['f', 'a', 'l', 's', 'e']
        pure (bool false)
      | some '"' => do
        Reader.expect '"'
        pure (string (← readString))
      | some '[' => do
        Reader.expect '['
        skipBlanks
        if ← Reader.accept ']' then pure (array [])
        else do
          let e ← element
          let es ← Reader.many (· = ',') fun _ => element
          Reader.expect ']'
          pure (array (e :: es))
      | some '{' => do
        Reader.expect '{'
        skipBlanks
        if ← Reader.accept '}' then pure (object [])
        else do
          let m ← member
          let ms ← Reader.many (· = ',') fun _ => member
          Reader.expect '}'
          pure (object (m :: ms))
      | _ => do
        let n ← Decimal.Numeral.read
        pure (number (← Reader.ofOption (Number.ofNumeral? n)))

/-- A value nests no more containers than its text has characters. -/
def ofChars? (cs : List Char) : Option Json :=
  Reader.readAll? (do
    skipBlanks
    let v ← readValue (cs.length + 1)
    skipBlanks
    pure v) cs

/-- The value of a text, unless it is no JSON. -/
def ofText? (s : String) : Option Json := ofChars? s.toList

end Json

end SdlSchema
