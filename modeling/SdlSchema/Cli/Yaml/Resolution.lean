import SdlSchema.Cli.Numeral
import SdlSchema.Cli.Setting
import SdlSchema.Cli.Yaml.Node

/-!
# The meaning of YAML scalars

A plain scalar can be null, a boolean or a number; all other scalars are text,
unless a tag asks for something else.
-/

namespace SdlSchema.Cli.Yaml

namespace Resolution

def isNull (s : String) : Bool := s = "~" || s = "null" || s = "Null" || s = "NULL"

def boolean? (s : String) : Option Bool :=
  if s = "true" || s = "True" || s = "TRUE" then some true
  else if s = "false" || s = "False" || s = "FALSE" then some false
  else none

/-! ## Numbers -/

/-- The value of digits in a base, if there is at least one and all are below the base. -/
def radixValue? (base : Nat) (cs : List Char) : Option Nat := do
  let ds ← cs.mapM Escape.hexValue?
  if ds.isEmpty || ds.any (base ≤ ·) then none else some (ds.foldl (fun n d => base * n + d) 0)

/-- The value of digits behind the mark of their base. -/
def markedValue? : List Char → Option Nat
  | '0' :: 'x' :: cs => radixValue? 16 cs
  | '0' :: 'o' :: cs => radixValue? 8 cs
  | '0' :: 'b' :: cs => radixValue? 2 cs
  | _ => none

/-- Digits that start with a needless zero, after a sign or without one. -/
def isPadded (cs : List Char) : Bool :=
  match Numeral.dropSign cs with
  | '0' :: ds => Numeral.areDigits ds
  | _ => false

/-- An integer of 128 bits, in base ten without needless zeros or in a base that is marked. -/
def isInteger (cs : List Char) : Bool :=
  match cs with
  | '-' :: ds =>
    (markedValue? ds).any (· ≤ Nat.pow 2 127) || (!isPadded cs && Numeral.isInteger 128 cs)
  | _ =>
    (markedValue? (Numeral.dropPlus cs)).any (· < Nat.pow 2 128) ||
      (!isPadded cs && Numeral.isInteger 128 cs)

/-- Infinity and the value that is no number. -/
def isSpecial (s : String) : Bool :=
  [".inf", ".Inf", ".INF", "+.inf", "+.Inf", "+.INF", "-.inf", "-.Inf", "-.INF",
    ".nan", ".NaN", ".NAN"].contains s

def isFloat (s : String) : Bool := isSpecial s || Numeral.isFinite s.toList

/-! ## Scalars -/

/-- What a plain scalar means. -/
def plain (s : String) : Setting :=
  if s.isEmpty || isNull s then .null
  else match boolean? s with
    | some b => .bool b
    | none =>
      if isInteger s.toList || (!isPadded s.toList && isFloat s) then .number else .text s

/-- What a scalar means of which a certain type is asked, whatever its style is. -/
def ofType? (s : String) : ScalarType → Option Setting
  | .null => if isNull s then some .null else none
  | .bool => (boolean? s).map .bool
  | .int => if isInteger s.toList then some .number else none
  | .float => if isFloat s then some .number else none

/-- What a scalar without a tag means. -/
def ofStyle (s : String) : Style → Setting
  | .plain => plain s
  | .quoted => .text s

end Resolution

namespace Tag

/-- A value under the label of its tag. -/
def wrap : Tag → Setting → Setting
  | label name, v => .map [(name, v)]
  | _, v => v

/-- What a scalar means, unless it is not what its tag asks for. -/
def scalar? (t : Tag) (style : Style) (s : String) : Option Setting :=
  match t with
  | .scalar type => Resolution.ofType? s type
  | .global => some (.text s)
  | t => some (t.wrap (Resolution.ofStyle s style))

end Tag

end SdlSchema.Cli.Yaml
