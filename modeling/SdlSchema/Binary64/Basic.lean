/-!
# Finite binary64 numbers

The magnitudes of the finite double precision numbers, in increasing order,
are counted from zero: this ordinal is the bit pattern without its sign.  The
number with ordinal `i` is `units i` times 2⁻¹⁰⁷⁴.  Every ordinal below
`Binary64.bound` is one number and no number has two, so equality of the
structure is equality of the doubles, with two zeros.
-/

namespace SdlSchema

/-- The number of magnitudes in a block, within which they are equally far apart. -/
def Binary64.block : Nat := Nat.pow 2 52

/-- The number of finite magnitudes. -/
def Binary64.bound : Nat := 2047 * block

/-- A finite double: a sign and the ordinal of its magnitude. -/
structure Binary64 where
  negative : Bool
  ordinal : Fin Binary64.bound
  deriving DecidableEq

namespace Binary64

/-- The magnitude with ordinal `i`, in multiples of the least positive one.  Each block after the
first two has twice the step of the one before. -/
def units (i : Nat) : Nat :=
  if i < block then i else (block + i % block) * Nat.pow 2 (i / block - 1)

/-- The number with the given sign and ordinal, if that is finite. -/
def ofOrdinal? (negative : Bool) (i : Nat) : Option Binary64 :=
  if h : i < bound then some ⟨negative, i, h⟩ else none

def zero (negative : Bool) : Binary64 := ⟨negative, 0, by decide⟩

def isZero (x : Binary64) : Bool := x.ordinal.val = 0

end Binary64

end SdlSchema
