import SdlSchema.Proofs.Sdl.Names

/-!
# The spelling of tokens

The texts that stand for a list of tokens: anything that is ignored may stand
in front of each token and behind the last one.  Where nothing does, the next
token must not run into the one before it.  Strings are quoted literals, in
which each character stands for itself or is escaped in any of the ways that
there are for it.
-/

namespace SdlSchema.Sdl

/-! ## Strings -/

namespace StringLiteral

/-- Four hexadecimal digits and the number that they make. -/
inductive IsUnit : List Char → Nat → Prop
  | mk {u : List Char} {a b c d : Nat}
      (h : u.map Escape.hexValue? = [some a, some b, some c, some d]) :
      IsUnit u (((a * 16 + b) * 16 + c) * 16 + d)

/-- The ways to write a character between quotes. -/
inductive CharSpelling : Char → List Char → Prop
  | plain {c : Char} (hquote : c ≠ '"') (hbackslash : c ≠ '\\') (hline : isLineEnd c = false) :
      CharSpelling c [c]
  | letter {c l : Char} (h : Escape.ofLetter? l = some c) : CharSpelling c ['\\', l]
  | unit {c : Char} {u : List Char} {n : Nat} (hu : IsUnit u n) (hc : Escape.charOf? n = some c) :
      CharSpelling c ('\\' :: 'u' :: u)
  | surrogates {c : Char} {u v : List Char} {m n : Nat} (hu : IsUnit u m) (hv : IsUnit v n)
      (hm : Escape.isHighSurrogate m = true) (hn : Escape.isLowSurrogate n = true)
      (hc : Escape.charOf? (Escape.ofSurrogates m n) = some c) :
      CharSpelling c ('\\' :: 'u' :: (u ++ '\\' :: 'u' :: v))
  | braced {c : Char} {ds : List Char} {ns : List Nat} (hne : ds ≠ [])
      (hds : ds.map Escape.hexValue? = ns.map some) (hc : Escape.charOfHex? ns = some c) :
      CharSpelling c ('\\' :: 'u' :: '{' :: (ds ++ ['}']))

/-- Characters written one by one. -/
inductive Spelling : List Char → List Char → Prop
  | nil : Spelling [] []
  | cons {c : Char} {s cs text : List Char} (hc : CharSpelling c cs) (hs : Spelling s text) :
      Spelling (c :: s) (cs ++ text)

end StringLiteral

/-! ## Tokens -/

namespace Punctuator

def chars : Punctuator → List Char
  | bang => ['!']
  | dollar => ['$']
  | amp => ['&']
  | parenL => ['(']
  | parenR => [')']
  | spread => ['.', '.', '.']
  | colon => [':']
  | equals => ['=']
  | atSign => ['@']
  | bracketL => ['[']
  | bracketR => [']']
  | braceL => ['{']
  | pipe => ['|']
  | braceR => ['}']

end Punctuator

namespace Token

/-- The texts of a single token; a token whose name is no `IsName` has none. -/
inductive Spelling : Token → List Char → Prop
  | punct (p : Punctuator) : Spelling (.punct p) p.chars
  | name {s : String} (h : IsName s) : Spelling (.name s) s.toList
  | number (n : Decimal.Numeral) : Spelling (.number n) n.chars
  | string {s : String} {text : List Char} (h : StringLiteral.Spelling s.toList text) :
      Spelling (.string s) ('"' :: (text ++ ['"']))

/-- The character cannot stand right behind the token.  A name or a numeral would go on or be cut
off in an invalid place, and a third quote would open a block string. -/
def RunsInto (t : Token) (c : Char) : Prop :=
  match t with
  | .punct _ => False
  | .name _ => isNameChar c = true
  | .number _ => isNameChar c = true ∨ c = '.'
  | .string s => s = "" ∧ c = '"'

end Token

/-! ## Texts -/

/-- Blanks, line ends, byte order marks, commas, and comments with the end of their line. -/
inductive Ignored : List Char → Prop
  | nil : Ignored []
  | blank {c : Char} {s : List Char} (hc : Token.isIgnored c = true) (hs : Ignored s) :
      Ignored (c :: s)
  | comma {s : List Char} (hs : Ignored s) : Ignored (',' :: s)
  | comment {text s : List Char} {c : Char} (htext : ∀ c ∈ text, StringLiteral.isLineEnd c = false)
      (hc : StringLiteral.isLineEnd c = true) (hs : Ignored s) : Ignored ('#' :: (text ++ c :: s))

/-- The texts of a list of tokens. -/
inductive Spells : List Token → List Char → Prop
  | nil {gap : List Char} (hgap : Ignored gap) : Spells [] gap
  | cons {t : Token} {ts : List Token} {gap cs rest : List Char} (hgap : Ignored gap)
      (ht : t.Spelling cs) (hrest : Spells ts rest) (hends : ∀ c ∈ rest.head?, ¬ t.RunsInto c) :
      Spells (t :: ts) (gap ++ (cs ++ rest))

end SdlSchema.Sdl
