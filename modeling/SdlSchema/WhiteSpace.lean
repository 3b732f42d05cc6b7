/-!
# White space

The characters with the Unicode property White_Space.
-/

namespace SdlSchema.WhiteSpace

/-- Has the property White_Space. -/
def holds (c : Char) : Bool :=
  let n := c.toNat
  (0x09 ≤ n && n ≤ 0x0D) || n = 0x20 || n = 0x85 || n = 0xA0 || n = 0x1680 ||
    (0x2000 ≤ n && n ≤ 0x200A) || n = 0x2028 || n = 0x2029 || n = 0x202F || n = 0x205F ||
    n = 0x3000

/-- The text without white space at its start. -/
def trimStart (cs : List Char) : List Char := cs.dropWhile holds

/-- The text without white space at its end. -/
def trimEnd (cs : List Char) : List Char := (cs.reverse.dropWhile holds).reverse

/-- The text without white space at both ends. -/
def trim (cs : List Char) : List Char := trimEnd (trimStart cs)

end SdlSchema.WhiteSpace
