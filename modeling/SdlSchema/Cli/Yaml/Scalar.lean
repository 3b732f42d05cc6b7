import SdlSchema.Cli.Yaml.Symbol
import SdlSchema.Escape

/-!
# YAML scalars

A scalar is written plain, in single or double quotes, or as an indented block
of lines that are kept (literal) or folded.

Where a plain or quoted scalar goes on to a new line, a single line end becomes
a space, and of several the first one is dropped.

The readers start after the first symbol of the scalar.
-/

namespace SdlSchema.Cli.Yaml

/-- What the blanks and line ends between two words of a scalar become. -/
def fold (gap : List Symbol) : List Char :=
  match (gap.filter Symbol.isBreak).map Symbol.char with
  | [] => gap.map Symbol.char
  | ['\n'] => [' ']
  | '\n' :: breaks => breaks
  | breaks => breaks

/-! ## Plain scalars -/

namespace Plain

/-- Characters with which a plain scalar cannot start, unless `isSoft` allows it. -/
def isIndicator (c : Char) : Bool :=
  "-?:,[]\x7b\x7d#&*!|>\x27\"%@\x60".toList.contains c

/-- A hyphen that is not before a blank, and outside flow collections also a question mark or a
colon that is not before a gap. -/
def isSoft (inFlow : Bool) (s : Symbol) : Bool :=
  if s.char = '-' then !s.next?.any isBlankChar
  else !inFlow && (s.char = '?' || s.char = ':') && !s.beforeGap

/-- A plain scalar can start here. -/
def startsWith (inFlow : Bool) (s : Symbol) : Bool :=
  !s.isGap && (!isIndicator s.char || isSoft inFlow s)

/-- A word ends before a colon with a gap behind it, and inside a flow collection before the marks
of that. -/
def endsWord (inFlow : Bool) (s : Symbol) : Bool :=
  s.isGap || (s.char = ':' && s.beforeGap) || (inFlow && isFlowMark s.char)

/-- Characters without a gap.  Inside a flow collection a colon must not run into one of its
marks. -/
def readWord (inFlow : Bool) : SymbolReader (List Char) :=
  Reader.many (fun s => !endsWord inFlow s) fun s => do
    Reader.guard !(inFlow && s.char = ':' && s.next?.any fun c => isFlowMark c || c = '?')
    pure s.char

/-- A tab must not stand in the indentation of a further line. -/
def isIndented (least : Nat) (gap : List Symbol) : Bool :=
  (gap.dropWhile fun s => !s.isBreak).all fun s => s.char ≠ '\t' || least ≤ s.mark.column

/-- The scalar does not go on with what follows a gap: the end, a comment, a marker, or in block
context a line that is indented less than the scalar. -/
def isOver (inFlow : Bool) (least : Nat) : List Symbol → Bool
  | [] => true
  | s :: rest =>
    s.char = '#' || isAnyMarker (s :: rest) || (!inFlow && s.mark.column < least)

/-- A gap and the word behind it, which is empty if the scalar is over. -/
structure Step where
  gap : List Symbol
  word : List Char

namespace Step

def chars (s : Step) : List Char := if s.word.isEmpty then [] else fold s.gap ++ s.word

/-- The scalar ends behind a line end. -/
def crossesLine (s : Step) : Bool := s.word.isEmpty && s.gap.any Symbol.isBreak

end Step

/-- The rest of a plain scalar whose lines stand in column `least` or further right.  The flag tells
whether a line end has been read behind it. -/
def read (inFlow : Bool) (least : Nat) (first : Symbol) : SymbolReader (String × Bool) := do
  let word ← readWord inFlow
  let steps ← Reader.many Symbol.isGap fun s => do
    let gap := s :: (← Reader.span Symbol.isGap)
    Reader.guard (isIndented least gap)
    if isOver inFlow least (← Reader.rest) then pure ⟨gap, []⟩
    else pure (⟨gap, ← readWord inFlow⟩ : Step)
  let chars := first.char :: word ++ steps.flatMap Step.chars
  pure (String.ofList chars, steps.getLast?.any Step.crossesLine)

end Plain

/-! ## Quoted scalars -/

namespace Quoted

/-- The gap that starts with a symbol.  No marker can follow it. -/
def readGap (s : Symbol) : SymbolReader (List Symbol) := do
  let gap := s :: (← Reader.span Symbol.isGap)
  Reader.guard !(isAnyMarker (← Reader.rest))
  pure gap

/-- The rest of a scalar in single quotes, in which a quote is written twice. -/
def readSingle : SymbolReader String := do
  let parts ← Reader.many (fun s => s.char ≠ '\x27' || s.next? = some '\x27') fun s => do
    if s.isGap then pure (fold (← readGap s))
    else
      if s.char = '\x27' then expect '\x27'
      pure [s.char]
  expect '\x27'
  pure (String.ofList parts.flatten)

/-- The character for which a letter after a backslash stands. -/
def ofLetter? : Char → Option Char
  | '0' => some '\x00'
  | 'a' => some '\x07'
  | 'v' => some '\x0b'
  | 'e' => some '\x1b'
  | ' ' => some ' '
  | '\t' => some '\t'
  | 'N' => some '\u0085'
  | '_' => some '\u00a0'
  | 'L' => some '\u2028'
  | 'P' => some '\u2029'
  | c => Escape.ofLetter? c

/-- The code point written with the given number of digits. -/
def readCode (digits : Nat) : SymbolReader Char := do
  let ds ← (List.replicate digits ()).mapM fun _ => do
    Reader.ofOption (Escape.hexValue? (← Reader.next).char)
  Reader.ofOption (Escape.charOfHex? ds)

/-- What stands for an escape, after its backslash.  Before a line end the backslash drops the line
end and the indentation of the next line. -/
def readEscape : SymbolReader (List Char) := do
  let s ← Reader.next
  if s.isBreak then
    let gap ← readGap s
    pure ((gap.tail.filter Symbol.isBreak).map Symbol.char)
  else match s.char with
    | 'x' => do pure [← readCode 2]
    | 'u' => do pure [← readCode 4]
    | 'U' => do pure [← readCode 8]
    | c => do pure [← Reader.ofOption (ofLetter? c)]

/-- The rest of a scalar in double quotes. -/
def readDouble : SymbolReader String := do
  let parts ← Reader.upTo (fun s => s.char = '"') fun s => do
    if s.isGap then pure (fold (← readGap s))
    else if s.char = '\\' then readEscape
    else pure [s.char]
  pure (String.ofList parts.flatten)

end Quoted

/-! ## Block scalars -/

namespace Block

/-- What becomes of the line ends at the end of a block. -/
inductive Chomping where
  /-- The first one is kept. -/
  | clip
  | strip
  | keep
  deriving DecidableEq

def readChomping? : SymbolReader (Option Chomping) := do
  if ← accept '+' then pure (some .keep)
  else if ← accept '-' then pure (some .strip)
  else pure none

/-- By how many columns the block is indented, if that is written. -/
def readIncrement? : SymbolReader (Option Nat) := do
  match ← Reader.peek? with
  | some s =>
    if s.char.isDigit then do
      let _ ← Reader.next
      Reader.guard (s.char ≠ '0')
      pure (some (s.char.toNat - 48))
    else pure none
  | none => pure none

/-- The two indicators behind the mark of a block, in either order, and the rest of the line. -/
def readHeader : SymbolReader (Chomping × Option Nat) := do
  let chomping? ← readChomping?
  let increment? ← readIncrement?
  let chomping? ← if chomping?.isSome then pure chomping? else readChomping?
  endLine
  pure (chomping?.getD .clip, increment?)

/-- A line of a block, its end, and the ends of the empty lines behind it. -/
structure Line where
  text : List Char
  lineEnd : List Char
  emptyLines : List Char

namespace Line

def startsBlank (l : Line) : Bool := l.text.head?.any isBlankChar

/-- What stands between a line and the next one. -/
def joint (folded : Bool) (l next : Line) : List Char :=
  if folded && l.lineEnd = ['\n'] && !l.startsBlank && !next.startsBlank then
    if l.emptyLines.isEmpty then [' '] else l.emptyLines
  else l.lineEnd ++ l.emptyLines

/-- What stands behind the last line. -/
def tail (l : Line) : Chomping → List Char
  | .clip => l.lineEnd
  | .strip => []
  | .keep => l.lineEnd ++ l.emptyLines

/-- The text of a line and the lines behind it. -/
def join (folded : Bool) (chomping : Chomping) (l : Line) : List Line → List Char
  | [] => l.text ++ l.tail chomping
  | next :: more => l.text ++ l.joint folded next ++ join folded chomping next more

end Line

/-- Indentation and empty lines, up to the next symbol in column `indent` or further right, or the
first one that is no space if the column is not known yet.  No tab can follow in the indentation. -/
def readEmptyLines (indent? : Option Nat) : SymbolReader (List Symbol) := do
  let isIndentation (s : Symbol) : Bool := indent?.all fun n => s.mark.column < n
  let skipped ← Reader.span fun s => s.isBreak || (s.char = ' ' && isIndentation s)
  Reader.guard !((← Reader.peek?).any fun s => s.char = '\t' && isIndentation s)
  pure (skipped.filter Symbol.isBreak)

/-- The furthest column that the empty lines and the next line reach. -/
def furthest (emptyLines : List Symbol) (next? : Option Symbol) : Nat :=
  (emptyLines ++ next?.toList).foldl (fun n s => max n s.mark.column) 0

/-- The rest of a block inside a collection in column `outer`, if there is one. -/
def read (folded : Bool) (outer? : Option Nat) : SymbolReader String := do
  let (chomping, increment?) ← readHeader
  let indent? := increment?.map fun n => outer?.getD 0 + n
  let emptyLines ← readEmptyLines indent?
  let least := max 1 ((outer?.map (· + 1)).getD 0)
  let indent := indent?.getD (max least (furthest emptyLines (← Reader.peek?)))
  let lines ← Reader.many (fun s => s.mark.column = indent) fun s => do
    let more ← Reader.span fun s => !s.isBreak
    let lineEnd? ← Reader.peek?
    let _ ← Reader.acceptIf Symbol.isBreak
    let emptyLines ← readEmptyLines (some indent)
    pure (⟨(s :: more).map Symbol.char, (lineEnd?.map Symbol.char).toList,
      emptyLines.map Symbol.char⟩ : Line)
  pure (String.ofList (Line.join folded chomping ⟨[], [], emptyLines.map Symbol.char⟩ lines))

end Block

end SdlSchema.Cli.Yaml
