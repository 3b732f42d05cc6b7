import SdlSchema.Decimal.Numeral
import SdlSchema.Sdl.StringLiteral

/-!
# GraphQL tokens

`Lexeme.ofChars?` cuts a text into tokens.  Blanks, line ends, commas, byte
order marks and comments separate tokens; any other character that starts no
token makes the whole text unreadable.  Of what stands between two tokens only
one thing is kept: whether there is a comma in it, since some tokens of the
grammar belong so closely together that no comma may part them.
-/

namespace SdlSchema.Sdl

/-- The symbols that are no names, numbers or strings. -/
inductive Punctuator where
  | bang
  | dollar
  | amp
  | parenL
  | parenR
  | spread
  | colon
  | equals
  | atSign
  | bracketL
  | bracketR
  | braceL
  | pipe
  | braceR
  deriving DecidableEq, Repr

/-- A string token holds its value, a numeral and a name what is written. -/
inductive Token where
  | punct (p : Punctuator)
  | name (s : String)
  | number (n : Decimal.Numeral)
  | string (s : String)
  deriving DecidableEq

namespace Punctuator

/-- The punctuator that a single character makes. -/
def ofChar? : Char → Option Punctuator
  | '!' => some bang
  | '$' => some dollar
  | '&' => some amp
  | '(' => some parenL
  | ')' => some parenR
  | ':' => some colon
  | '=' => some equals
  | '@' => some atSign
  | '[' => some bracketL
  | ']' => some bracketR
  | '{' => some braceL
  | '|' => some pipe
  | '}' => some braceR
  | _ => none

end Punctuator

namespace Token

/-! ## Characters -/

/-- Blanks, line ends and byte order marks. -/
def isIgnored (c : Char) : Bool :=
  c = ' ' || c = '\t' || c = '\n' || c = '\r' || c = '\uFEFF'

def isLetter (c : Char) : Bool := ('a' ≤ c && c ≤ 'z') || ('A' ≤ c && c ≤ 'Z')

def isNameStart (c : Char) : Bool := isLetter c || c = '_'

def isNameChar (c : Char) : Bool := isNameStart c || ('0' ≤ c && c ≤ '9')

/-! ## Reading -/

/-- A numeral must not run into a name or a point. -/
def readNumber (c : Char) : Reader Char Token := do
  let n ← Decimal.Numeral.readAfter c
  let follower ← Reader.peek?
  Reader.guard (!follower.any fun c => isNameChar c || c = '.')
  pure (number n)

/-- The rest of a string after its first quote.  Two quotes are an empty string unless a third one
follows. -/
def readString : Reader Char Token := do
  let cs ←
    if ← Reader.accept '"' then
      if ← Reader.accept '"' then StringLiteral.readBlock else pure []
    else StringLiteral.readQuoted
  pure (string (String.ofList cs))

/-- The token that starts with the given character. -/
def read (c : Char) : Reader Char Token :=
  if isNameStart c then do
    let cs ← Reader.span isNameChar
    pure (name (String.ofList (c :: cs)))
  else if c = '"' then readString
  else if c = '.' then do
    Reader.expect '.'
    Reader.expect '.'
    pure (punct .spread)
  else match Punctuator.ofChar? c with
    | some p => pure (punct p)
    | none => readNumber c

end Token

/-! ## Lexemes -/

/-- A token, and whether there is a comma between the token before it and this one. -/
structure Lexeme where
  token : Token
  afterComma : Bool
  deriving DecidableEq

/-- What a text consists of. -/
inductive Piece where
  | ignored
  | comma
  | token (t : Token)
  deriving DecidableEq

namespace Piece

/-- The piece that starts with the given character. -/
def read (c : Char) : Reader Char Piece :=
  if Token.isIgnored c then pure ignored
  else if c = ',' then pure comma
  else if c = '#' then do
    let _ ← Reader.span fun c => !StringLiteral.isLineEnd c
    pure ignored
  else token <$> Token.read c

end Piece

namespace Lexeme

/-- The tokens among pieces of which some stand behind a comma already. -/
def ofPieces (afterComma : Bool) : List Piece → List Lexeme
  | [] => []
  | .ignored :: ps => ofPieces afterComma ps
  | .comma :: ps => ofPieces true ps
  | .token t :: ps => ⟨t, afterComma⟩ :: ofPieces false ps

/-- The tokens of a whole text. -/
def ofChars? (cs : List Char) : Option (List Lexeme) :=
  ((Reader.toEnd Piece.read).readAll? cs).map (ofPieces false)

end Lexeme

end SdlSchema.Sdl
