import SdlSchema.Json.Value
import SdlSchema.Escape

/-!
# JSON texts

A value has a compact text without white space outside its strings, and a
pretty text with one element or member a line, indented by two spaces a level.
Both come from the same writer, which differs only in what it puts between two
tokens.  It writes in front of a given rest, so that the length of the text
alone counts and not the depth of the value.
-/

namespace SdlSchema

/-- How a text is laid out. -/
inductive Style where
  | compact
  | pretty
  deriving DecidableEq

namespace Style

/-- What stands before an element, and before the end of a container, at the given depth. -/
def newline (s : Style) (depth : Nat) (rest : List Char) : List Char :=
  match s with
  | compact => rest
  | pretty => '\n' :: (List.replicate (2 * depth) ' ' ++ rest)

/-- What stands between a key and its value. -/
def colon (s : Style) (rest : List Char) : List Char :=
  match s with
  | compact => ':' :: rest
  | pretty => ':' :: ' ' :: rest

end Style

/-! ## Numbers and strings -/

namespace Number

/-- A number as text; that of a float never reads as an integer. -/
def chars : Number → List Char
  | int n => Decimal.intChars n
  | float x => x.chars

end Number

namespace Json

/-- A character inside a string: quotes, backslashes and control characters are escaped, all others
stand for themselves. -/
def escape (c : Char) : List Char :=
  match c with
  | '"' => ['\\', '"']
  | '\\' => ['\\', '\\']
  | '\x08' => ['\\', 'b']
  | '\x0c' => ['\\', 'f']
  | '\n' => ['\\', 'n']
  | '\r' => ['\\', 'r']
  | '\t' => ['\\', 't']
  | c =>
    if c.toNat < 0x20 then
      ['\\', 'u', '0', '0', Escape.hexDigit (c.toNat / 16), Escape.hexDigit (c.toNat % 16)]
    else [c]

/-- The escaped characters of a string, followed by the rest. -/
def escapeAll : List Char → List Char → List Char
  | [], rest => rest
  | c :: cs, rest => escape c ++ escapeAll cs rest

/-- A string in quotes, followed by the rest. -/
def writeString (s : String) (rest : List Char) : List Char :=
  '"' :: escapeAll s.toList ('"' :: rest)

/-! ## Values -/

mutual

/-- The text of a value, followed by `rest`. -/
def write (style : Style) (depth : Nat) : Json → List Char → List Char
  | null, rest => 'n' :: 'u' :: 'l' :: 'l' :: rest
  | bool true, rest => 't' :: 'r' :: 'u' :: 'e' :: rest
  | bool false, rest => 'f' :: 'a' :: 'l' :: 's' :: 'e' :: rest
  | number n, rest => n.chars ++ rest
  | string s, rest => writeString s rest
  | array [], rest => '[' :: ']' :: rest
  | array (e :: es), rest =>
    '[' :: style.newline (depth + 1) (write style (depth + 1) e
      (writeElements style depth es (style.newline depth (']' :: rest))))
  | object [], rest => '{' :: '}' :: rest
  | object ((k, v) :: ms), rest =>
    '{' :: style.newline (depth + 1) (writeString k (style.colon (write style (depth + 1) v
      (writeMembers style depth ms (style.newline depth ('}' :: rest))))))

/-- The elements after the first one. -/
def writeElements (style : Style) (depth : Nat) : List Json → List Char → List Char
  | [], rest => rest
  | e :: es, rest =>
    ',' :: style.newline (depth + 1) (write style (depth + 1) e
      (writeElements style depth es rest))

/-- The members after the first one. -/
def writeMembers (style : Style) (depth : Nat) : List (String × Json) → List Char → List Char
  | [], rest => rest
  | (k, v) :: ms, rest =>
    ',' :: style.newline (depth + 1) (writeString k (style.colon (write style (depth + 1) v
      (writeMembers style depth ms rest))))

end

def chars (style : Style) (j : Json) : List Char := write style 0 j []

/-- The text of a value. -/
def text (style : Style) (j : Json) : String := String.ofList (j.chars style)

end Json

end SdlSchema
