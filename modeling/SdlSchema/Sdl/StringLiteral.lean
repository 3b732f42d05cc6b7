import SdlSchema.Escape

/-!
# GraphQL string literals

A quoted string stands on one line, of which only the opening quote can be the
end, and has escapes.  A block string keeps its
lines as they are, except that the indentation common to all lines after the
first and blank lines at both ends are dropped; three quotes after a backslash
are its only escape.

The readers start after the opening quotes.
-/

namespace SdlSchema.Sdl.StringLiteral

/-! ## Quoted strings -/

/-- The code point between the braces of `\u{…}`. -/
def readBraced : Reader Char Char := do
  let ds ← Reader.someUpTo (· = '}') fun c => Reader.ofOption (Escape.hexValue? c)
  Reader.ofOption (Escape.charOfHex? ds)

/-- The character for which an escape stands, after its backslash. -/
def readEscape : Reader Char Char := do
  let c ← Reader.next
  if c = 'u' then
    if ← Reader.accept '{' then readBraced else Escape.readUnits
  else Reader.ofOption (Escape.ofLetter? c)

def isLineEnd (c : Char) : Bool := c = '\n' || c = '\r'

/-- The characters of a quoted string, up to its closing quote.  Only the first of them can be a
line end. -/
def readQuoted : Reader Char (List Char) := do
  let first? ← Reader.peek?
  let opening ← Reader.acceptIf isLineEnd
  let cs ← Reader.upTo (· = '"') fun c =>
    if c = '\\' then readEscape
    else do
      Reader.guard !(isLineEnd c)
      pure c
  pure (if opening then first?.toList ++ cs else cs)

/-! ## Block strings -/

/-- The text up to three quotes in a row. -/
def blockBody : List Char → Option (List Char × List Char)
  | '"' :: '"' :: '"' :: rest => some ([], rest)
  | '\\' :: '"' :: '"' :: '"' :: rest =>
    (blockBody rest).map fun (cs, rest) => ('"' :: '"' :: '"' :: cs, rest)
  | c :: rest => (blockBody rest).map fun (cs, rest) => (c :: cs, rest)
  | [] => none

theorem blockBody_length_le (s : List Char) : ∀ {cs rest : List Char},
    blockBody s = some (cs, rest) → rest.length ≤ s.length := by
  fun_induction blockBody s with
  | case1 rest => intro cs r h; cases h; simp; omega
  | case2 rest ih =>
    intro cs r h
    obtain ⟨⟨cs', r'⟩, hb, heq⟩ := Option.map_eq_some_iff.1 h
    cases heq
    have := ih hb
    simp only [List.length_cons]
    omega
  | case3 c rest _ _ ih =>
    intro cs r h
    obtain ⟨⟨cs', r'⟩, hb, heq⟩ := Option.map_eq_some_iff.1 h
    cases heq
    have := ih hb
    simp only [List.length_cons]
    omega
  | case4 => simp

/-- The lines of a text, which end at a line feed, a carriage return or both in this order. -/
def splitLines : List Char → List (List Char)
  | [] => [[]]
  | '\r' :: '\n' :: cs => [] :: splitLines cs
  | c :: cs =>
    if isLineEnd c then [] :: splitLines cs
    else match splitLines cs with
      | [] => [[c]]
      | l :: ls => (c :: l) :: ls

def isBlank (c : Char) : Bool := c = ' ' || c = '\t'

def indentation (line : List Char) : Nat := (line.takeWhile isBlank).length

/-- The least indentation of the lines that are not blank. -/
def commonIndentation (lines : List (List Char)) : Option Nat :=
  ((lines.filter fun l => !l.all isBlank).map indentation).min?

/-- Drops blank lines at the front. -/
def dropBlankLines (lines : List (List Char)) : List (List Char) :=
  lines.dropWhile fun l => l.all isBlank

/-- The lines of a block string without the indentation that the source gives them. -/
def unindent : List (List Char) → List (List Char)
  | [] => []
  | first :: more => first :: more.map (List.drop ((commonIndentation more).getD 0))

/-- The value of a block string whose text between the quotes is given. -/
def blockValue (text : List Char) : List Char :=
  let lines := dropBlankLines (unindent (splitLines text))
  let lines := (dropBlankLines lines.reverse).reverse
  List.intercalate ['\n'] lines

/-- The characters of a block string, up to its closing quotes. -/
def readBlock : Reader Char (List Char) :=
  blockValue <$> ⟨blockBody, blockBody_length_le _⟩

end SdlSchema.Sdl.StringLiteral
