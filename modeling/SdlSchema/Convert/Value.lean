import SdlSchema.Json.Value
import SdlSchema.Sdl.Definition

/-!
# The JSON value of a constant

A numeral without fraction and exponent in the range of 64 bit integers is that
integer.  Any other numeral is the nearest double, and one that no double is
near to is kept as a string.  Enum values and variables become strings.
-/

namespace SdlSchema

namespace Decimal.Numeral

/-- Is a signed 64 bit integer. -/
def isInt64 (n : Numeral) : Bool :=
  n.isIntegral && if n.negative then n.whole ≤ Nat.pow 2 63 else n.whole < Nat.pow 2 63

def toJson (n : Numeral) : CanonicalJson :=
  if n.isInt64 then .number (.int n.integer)
  else match Binary64.ofNumeral? n with
    | some x => .number (.float x)
    | none => .string n.text

end Decimal.Numeral

namespace Sdl.Const

mutual

def toJson : Const → CanonicalJson
  | .null => .null
  | .boolean b => .bool b
  | .number n => n.toJson
  | .string s => .string s
  | .enum n => .string n
  | .variable n => .string ("$" ++ n)
  | .list es => .array (elementsToJson es)
  | .object fs => .object (fieldsToJson fs)

def elementsToJson : List Const → List CanonicalJson
  | [] => []
  | e :: es => e.toJson :: elementsToJson es

def fieldsToJson : List (String × Const) → List (String × CanonicalJson)
  | [] => []
  | (k, v) :: fs => (k, v.toJson) :: fieldsToJson fs

end

end Sdl.Const

end SdlSchema
