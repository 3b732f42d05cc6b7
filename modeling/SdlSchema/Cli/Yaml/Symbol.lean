import SdlSchema.Reader

/-!
# YAML symbols

The structure of a YAML text depends on lines and columns, so it is read as a
list of characters that know their places and the character behind them.
-/

namespace SdlSchema.Cli.Yaml

/-- A place in a text: how many characters are before it, its line and its column. -/
structure Mark where
  index : Nat
  line : Nat
  column : Nat
  deriving DecidableEq

namespace Mark

def start : Mark := ⟨0, 0, 0⟩

def next (m : Mark) : Mark := ⟨m.index + 1, m.line, m.column + 1⟩

/-- The start of the next line, behind a line end of `n` characters. -/
def nextLine (m : Mark) (n : Nat) : Mark := ⟨m.index + n, m.line + 1, 0⟩

end Mark

/-- A character, its place, and the character behind it. -/
structure Symbol where
  char : Char
  mark : Mark
  next? : Option Char
  deriving DecidableEq

abbrev SymbolReader := Reader Symbol

/-! ## Characters -/

/-- Tabs, line ends and all characters that are neither control characters nor surrogates. -/
def isAllowed (c : Char) : Bool :=
  let n := c.toNat
  n = 0x09 || n = 0x0A || n = 0x0D || (0x20 ≤ n && n < 0x7F) || n = 0x85 ||
    (0xA0 ≤ n && n < 0xFFFE) || 0x10000 ≤ n

def isBlankChar (c : Char) : Bool := c = ' ' || c = '\t'

/-- Line ends that are written in many ways and count as one. -/
def isLineEnd (c : Char) : Bool := c = '\n' || c = '\r' || c = '\u0085'

/-- Line ends that keep their character. -/
def isSeparator (c : Char) : Bool := c = '\u2028' || c = '\u2029'

def isBreakChar (c : Char) : Bool := isLineEnd c || isSeparator c

def isGapChar (c : Char) : Bool := isBlankChar c || isBreakChar c

/-- Characters of anchors and of the names of tags and directives. -/
def isNameChar (c : Char) : Bool := c.isAlphanum || c = '_' || c = '-'

/-- The marks of flow collections. -/
def isFlowMark (c : Char) : Bool := c = ',' || c = '[' || c = ']' || c = '\x7b' || c = '\x7d'

/-! ## Symbols of a text -/

namespace Symbol

/-- The symbol at a place before others. -/
def before (c : Char) (m : Mark) (rest : List Symbol) : Symbol := ⟨c, m, rest.head?.map char⟩

/-- The symbols of a text that starts at a place.  All line ends but separators become line
feeds. -/
def ofChars (m : Mark) : List Char → List Symbol
  | [] => []
  | '\r' :: '\n' :: cs =>
    let rest := ofChars (m.nextLine 2) cs
    before '\n' m rest :: rest
  | c :: cs =>
    let rest := ofChars (if isBreakChar c then m.nextLine 1 else m.next) cs
    before (if isLineEnd c then '\n' else c) m rest :: rest

def isBlank (s : Symbol) : Bool := isBlankChar s.char

def isBreak (s : Symbol) : Bool := isBreakChar s.char

def isGap (s : Symbol) : Bool := isGapChar s.char

/-- A gap or the end of the text comes next. -/
def beforeGap (s : Symbol) : Bool := s.next?.all isGapChar

/-- A byte order mark at the start of the text. -/
def isOrderMark (s : Symbol) : Bool := s.char = '\uFEFF' && s.mark.index = 0

end Symbol

/-! ## Small readers -/

def accept (c : Char) : SymbolReader Bool := Reader.acceptIf fun s => s.char = c

def expect (c : Char) : SymbolReader Unit := do Reader.guard (← accept c)

def skipBlanks : SymbolReader Unit := do
  let _ ← Reader.span Symbol.isBlank
  pure ()

/-- The next symbol, if there is one, satisfies the condition. -/
def endOr (p : Symbol → Bool) : SymbolReader Bool := do pure ((← Reader.peek?).all p)

/-- A gap or the end of the text comes next. -/
def atGap : SymbolReader Bool := endOr Symbol.isGap

/-- Skips blanks, a comment and the end of the line, before which there must be nothing else. -/
def endLine : SymbolReader Unit := do
  skipBlanks
  if ← accept '#' then
    let _ ← Reader.span fun s => !s.isBreak
  Reader.guard (← endOr Symbol.isBreak)
  let _ ← Reader.acceptIf Symbol.isBreak

/-- Three equal characters at the start of a line, with a gap behind them. -/
def isMarker (c : Char) : List Symbol → Bool
  | a :: b :: d :: _ =>
    a.mark.column = 0 && a.char = c && b.char = c && d.char = c && d.beforeGap
  | _ => false

/-- One of the markers at which a document starts or ends. -/
def isAnyMarker (s : List Symbol) : Bool := isMarker '-' s || isMarker '.' s

end SdlSchema.Cli.Yaml
