import Mathlib.Algebra.Order.Group.Abs
import SdlSchema.Proofs.Binary64.Nearest
import SdlSchema.Proofs.Binary64.Numeral

/-!
# The double nearest to a number

A double has the value of its significand and its exponent, as in the format
that its bit pattern follows.  It is nearest to a number (`IsNearest`) if no
other is nearer, and of two that are equally near it is the one with the even
significand.  The decimals in a rounding interval are those to which its double
is nearest (`isNearest_of_mem`, `eq_of_isNearest`), so reading a numeral gives
the nearest double (`isNearest_ofNumeral?`), and reading what is written for a
double gives that double (`ofNumeral?_numeral`).
-/

namespace SdlSchema

namespace Binary64

/-! ## Values -/

/-- The bits behind the exponent, with the leading bit that is not written unless the number is
subnormal. -/
def significand (x : Binary64) : Nat :=
  if x.ordinal.val < block then x.ordinal.val else block + x.ordinal.val % block

/-- The power of two that belongs to the significand; subnormal numbers share the least one. -/
def exponent (x : Binary64) : Int := (max 1 (x.ordinal.val / block) : Nat) - 1075

def magnitude (x : Binary64) : ℚ := x.significand * 2 ^ x.exponent

def sign (x : Binary64) : ℚ := if x.negative then -1 else 1

/-- The number that a double stands for. -/
def value (x : Binary64) : ℚ := x.sign * x.magnitude

theorem significand_mod_two (x : Binary64) : x.significand % 2 = x.ordinal.val % 2 := by
  unfold significand
  split
  · rfl
  · have hone : block + x.ordinal.val % block = 1 * block + x.ordinal.val % block := by
      rw [Nat.one_mul]
    rw [hone, mod_two_mul_block_add, ← mod_two_mul_block_add (x.ordinal.val / block),
      Nat.div_add_mod']

/-- The significand is that of the ordinal in its block. -/
theorem units_significand (x : Binary64) :
    2 * units x.ordinal = x.significand * 2 ^ max 1 (x.ordinal.val / block) := by
  unfold significand units
  split
  · next h => rw [Nat.div_eq_of_lt h, Nat.max_eq_left (by decide), Nat.pow_one, Nat.mul_comm]
  · next h =>
    have hpos : 0 < x.ordinal.val / block := Nat.div_pos (Nat.le_of_not_lt h) block_pos
    obtain ⟨q, hq⟩ := Nat.exists_eq_add_one.2 hpos
    rw [hq, Nat.max_eq_right (by omega), Nat.add_sub_cancel, Nat.pow_eq, pow_succ]
    ring

theorem units_eq (x : Binary64) : 2 * (units x.ordinal : ℚ) = x.magnitude * 2 ^ 1075 := by
  have hpow (n : Nat) : (2 : ℚ) ^ ((n : Int) - (1075 : Nat)) * 2 ^ 1075 = 2 ^ n := by
    rw [zpow_sub₀ (by norm_num), zpow_natCast, zpow_natCast, div_mul_cancel₀ _ (by positivity)]
  have hunits : (2 * units x.ordinal : ℚ) = x.significand * 2 ^ max 1 (x.ordinal.val / block) := by
    exact_mod_cast x.units_significand
  rw [hunits, magnitude, exponent, mul_assoc]
  exact congrArg _ (hpow _).symm

theorem magnitude_nonneg (x : Binary64) : 0 ≤ x.magnitude := by
  unfold magnitude
  positivity

theorem abs_sign (x : Binary64) : |x.sign| = 1 := by
  unfold sign
  split <;> simp

theorem abs_value (x : Binary64) : |x.value| = x.magnitude := by
  rw [value, abs_mul, abs_sign, one_mul, abs_of_nonneg x.magnitude_nonneg]

/-! ## Distances

All distances are measured in multiples of 2⁻¹⁰⁷⁵, as the intervals are. -/

section Distance

variable {i j : Nat} {q : ℚ}

/-- A number in an interval is on the upper side of the middle to any magnitude below; only that of
the odd neighbour can be as far away. -/
theorem le_of_mem_of_lt (h : (Interval.ofOrdinal i).Mem q) (hj : j < i) :
    units j + units i ≤ q ∧ (q = units j + units i → i % 2 = 0 ∧ j % 2 = 1) := by
  have hunits : units j ≤ units (i - 1) := units_strictMono.monotone (by omega)
  have hcast : (units j : ℚ) ≤ units (i - 1) := Nat.cast_le.2 hunits
  have hlow : ((Interval.ofOrdinal i).low : ℚ) = units (i - 1) + units i := Nat.cast_add _ _
  have hle := h.le.1
  rw [hlow] at hle
  refine ⟨by linarith, fun hq => ?_⟩
  have heven : i % 2 = 0 := by
    by_contra hodd
    have hlt := (h.lt (by simpa [Interval.ofOrdinal] using hodd)).1
    rw [hlow] at hlt
    linarith
  have heq : units j = units (i - 1) := by
    have : (units (i - 1) : ℚ) ≤ units j := by linarith
    exact le_antisymm hunits (Nat.cast_le.1 this)
  have hneighbour : j = i - 1 := units_strictMono.injective heq
  omega

theorem le_of_mem_of_gt (h : (Interval.ofOrdinal i).Mem q) (hj : i < j) :
    q ≤ units i + units j ∧ (q = units i + units j → i % 2 = 0 ∧ j % 2 = 1) := by
  have hunits : units (i + 1) ≤ units j := units_strictMono.monotone hj
  have hcast : (units (i + 1) : ℚ) ≤ units j := Nat.cast_le.2 hunits
  have hhigh : ((Interval.ofOrdinal i).high : ℚ) = units i + units (i + 1) := Nat.cast_add _ _
  have hle := h.le.2
  rw [hhigh] at hle
  refine ⟨by linarith, fun hq => ?_⟩
  have heven : i % 2 = 0 := by
    by_contra hodd
    have hlt := (h.lt (by simpa [Interval.ofOrdinal] using hodd)).2
    rw [hhigh] at hlt
    linarith
  have heq : units j = units (i + 1) := by
    have : (units j : ℚ) ≤ units (i + 1) := by linarith
    exact le_antisymm (Nat.cast_le.1 this) hunits
  have hneighbour : j = i + 1 := units_strictMono.injective heq
  omega

/-- No magnitude is nearer than that of the interval, and one as near has an odd ordinal. -/
theorem dist_of_mem (h : (Interval.ofOrdinal i).Mem q) (hj : j ≠ i) :
    |2 * units i - q| ≤ |2 * units j - q| ∧
      (|2 * units j - q| = |2 * units i - q| → i % 2 = 0 ∧ j % 2 = 1) := by
  rcases Nat.lt_or_gt_of_ne hj with hlt | hgt
  · obtain ⟨hle, htie⟩ := le_of_mem_of_lt h hlt
    have hunits : (units j : ℚ) < units i := Nat.cast_lt.2 (units_strictMono hlt)
    have hdist : |2 * units j - q| = q - 2 * units j := by
      rw [abs_sub_comm, abs_of_nonneg (by linarith)]
    rw [hdist]
    refine ⟨abs_le.2 ⟨by linarith, by linarith⟩, fun heq => htie ?_⟩
    rcases abs_choice (2 * (units i : ℚ) - q) with habs | habs <;> rw [habs] at heq <;> linarith
  · obtain ⟨hle, htie⟩ := le_of_mem_of_gt h hgt
    have hunits : (units i : ℚ) < units j := Nat.cast_lt.2 (units_strictMono hgt)
    have hdist : |2 * units j - q| = 2 * units j - q := abs_of_nonneg (by linarith)
    rw [hdist]
    refine ⟨abs_le.2 ⟨by linarith, by linarith⟩, fun heq => htie ?_⟩
    rcases abs_choice (2 * (units i : ℚ) - q) with habs | habs <;> rw [habs] at heq <;> linarith

end Distance

/-! ## The nearest double -/

/-- No double is nearer, and if another one is as near then this one has an even significand. -/
structure IsNearest (x : Binary64) (v : ℚ) : Prop where
  nearest : ∀ y : Binary64, |x.value - v| ≤ |y.value - v|
  even : ∀ y : Binary64, y.value ≠ x.value → |y.value - v| = |x.value - v| →
    x.significand % 2 = 0

section Nearest

variable {x y : Binary64} {v w : ℚ}

/-- Apart from the signs, a double is no nearer. -/
theorem dist_units_le (y : Binary64) (hv : |v| = w) :
    |2 * units y.ordinal - w * 2 ^ 1075| ≤ |y.value - v| * 2 ^ 1075 := by
  have hpow : (0 : ℚ) ≤ 2 ^ 1075 := by positivity
  have habs : |y.magnitude - w| ≤ |y.value - v| := by
    rw [← hv, ← abs_value]
    exact abs_abs_sub_abs_le_abs_sub y.value v
  rw [units_eq, ← sub_mul, abs_mul, abs_of_nonneg hpow]
  exact mul_le_mul_of_nonneg_right habs hpow

theorem dist_units_eq (hv : v = x.sign * w) :
    |x.value - v| * 2 ^ 1075 = |2 * units x.ordinal - w * 2 ^ 1075| := by
  have hpow : (0 : ℚ) ≤ 2 ^ 1075 := by positivity
  rw [units_eq, ← sub_mul, abs_mul, abs_of_nonneg hpow, hv, value, ← mul_sub, abs_mul, abs_sign,
    one_mul]

theorem ordinal_eq_of_magnitude (h : y.magnitude = x.magnitude) :
    y.ordinal.val = x.ordinal.val := by
  have hunits : 2 * (units y.ordinal : ℚ) = 2 * units x.ordinal := by rw [units_eq, units_eq, h]
  exact units_strictMono.injective (Nat.cast_injective (mul_left_cancel₀ (by norm_num) hunits))

theorem value_eq_or_eq_neg (h : y.ordinal = x.ordinal) :
    y.value = x.value ∨ y.value = -x.value := by
  have hmagnitude : y.magnitude = x.magnitude := by simp only [magnitude, significand, exponent, h]
  unfold value sign
  rw [hmagnitude]
  cases x.negative <;> cases y.negative <;> simp

/-- A double is nearest to the numbers in its interval. -/
theorem isNearest_of_mem (hw : 0 ≤ w) (hv : v = x.sign * w)
    (hmem : (Interval.ofOrdinal x.ordinal).Mem (w * 2 ^ 1075)) : x.IsNearest v := by
  have hpow : (0 : ℚ) < 2 ^ 1075 := by positivity
  have habs : |v| = w := by rw [hv, abs_mul, abs_sign, one_mul, abs_of_nonneg hw]
  have hself := dist_units_eq hv
  constructor
  · intro y
    have hother := dist_units_le y habs
    have hle : |2 * units x.ordinal - w * 2 ^ 1075| ≤ |2 * units y.ordinal - w * 2 ^ 1075| := by
      by_cases hordinal : y.ordinal.val = x.ordinal.val
      · rw [hordinal]
      · exact (dist_of_mem hmem hordinal).1
    exact le_of_mul_le_mul_right (hself.trans_le (hle.trans hother)) hpow
  · intro y hne htie
    rw [significand_mod_two]
    by_cases hordinal : y.ordinal = x.ordinal
    · -- the same magnitude with the other sign is as far away from zero only
      have hneg : y.value = -x.value := (value_eq_or_eq_neg hordinal).resolve_left hne
      have hzero : v = 0 := by
        rcases abs_eq_abs.1 htie with heq | heq
        · exact absurd (sub_left_injective heq) hne
        · linarith
      have hw0 : w = 0 := by rw [← habs, hzero, abs_zero]
      have hx : x.ordinal.val = 0 := by
        by_contra hx
        have hpos := Interval.pos_of_mem (Nat.pos_of_ne_zero hx) hmem
        simp [hw0] at hpos
      rw [hx]
    · have hother := dist_units_le y habs
      have hordinal' : y.ordinal.val ≠ x.ordinal.val := fun h => hordinal (Fin.ext h)
      obtain ⟨hle, heven⟩ := dist_of_mem hmem hordinal'
      rw [htie, hself] at hother
      exact (heven (le_antisymm hother hle)).1

/-- No other double of that sign is nearest to the numbers in an interval. -/
theorem eq_of_isNearest (hw : 0 ≤ w) (hv : v = x.sign * w)
    (hmem : (Interval.ofOrdinal x.ordinal).Mem (w * 2 ^ 1075)) (hy : y.IsNearest v)
    (hnegative : y.negative = x.negative) : y = x := by
  have hx := isNearest_of_mem hw hv hmem
  have hsign : y.sign = x.sign := by rw [sign, sign, hnegative]
  have htie : |y.value - v| = |x.value - v| := le_antisymm (hy.nearest x) (hx.nearest y)
  have hordinal : y.ordinal.val = x.ordinal.val := by
    by_contra hne
    have hdist := congrArg (· * (2 : ℚ) ^ 1075) htie
    simp only [dist_units_eq hv, dist_units_eq (hv.trans (hsign ▸ rfl) : v = y.sign * w)] at hdist
    obtain ⟨-, hodd⟩ := (dist_of_mem hmem hne).2 hdist
    have hvalue : x.value ≠ y.value := fun h =>
      hne (ordinal_eq_of_magnitude (by rw [← abs_value, ← abs_value, h]))
    have heven := hy.even x hvalue htie.symm
    rw [significand_mod_two] at heven
    omega
  obtain ⟨negative, ordinal⟩ := x
  obtain ⟨negative', ordinal'⟩ := y
  simp only at hnegative hordinal
  rw [hnegative, Fin.ext hordinal]

end Nearest

end Binary64

/-! ## Reading numerals -/

namespace Decimal.Numeral

/-- The number that is written. -/
def value (n : Numeral) : ℚ :=
  (if n.negative then -1 else 1) *
    ((n.whole + ofDigits n.fraction / 10 ^ n.fraction.length) *
      10 ^ (match n.exponent with
        | none => 0
        | some e => e.value))

theorem value_eq (n : Numeral) : n.value = (if n.negative then -1 else 1) * n.magnitude := by
  have hten : (10 : ℚ) ^ n.fraction.length ≠ 0 := by positivity
  rw [value, magnitude, coefficient, scale, zpow_sub₀ (by norm_num), zpow_natCast]
  congr 1
  rw [Nat.pow_eq]
  push_cast
  cases n.exponent with
  | none => field_simp
  | some e => field_simp

theorem magnitude_nonneg (n : Numeral) : 0 ≤ n.magnitude := by
  unfold magnitude
  positivity

theorem abs_value (n : Numeral) : |n.value| = n.magnitude := by
  rw [value_eq, abs_mul, abs_of_nonneg n.magnitude_nonneg]
  split <;> simp

end Decimal.Numeral

namespace Binary64

open Decimal (Numeral)

variable {n : Numeral} {x : Binary64}

/-- The numerals that are read as a double are those with its sign in its interval. -/
theorem ofNumeral?_eq_some_iff : ofNumeral? n = some x ↔ x.negative = n.negative ∧
    (Interval.ofOrdinal x.ordinal).Mem (n.magnitude * 2 ^ 1075) := by
  have hmem := mem_decimalOrdinal n.coefficient n.scale
  rw [ofNumeral?, nearest?_eq, ofOrdinal?]
  constructor
  · intro h
    split at h
    · cases h
      exact ⟨rfl, hmem⟩
    · cases h
  · rintro ⟨hnegative, hx⟩
    have hordinal := Interval.ordinal_unique hmem hx
    have hfinite : decimalOrdinal n.coefficient n.scale < bound := hordinal ▸ x.ordinal.isLt
    rw [dif_pos hfinite]
    obtain ⟨negative, ordinal⟩ := x
    simp only at hnegative hordinal
    rw [hnegative]
    exact congrArg some (congrArg _ (Fin.ext hordinal))

theorem ofNumeral?_eq_none_iff : ofNumeral? n = none ↔ overflow ≤ n.magnitude := by
  rw [ofNumeral?, nearest?_eq, ofOrdinal?_eq_none_iff, ← Nat.not_lt,
    lt_bound_iff (mem_decimalOrdinal n.coefficient n.scale), not_lt]
  rfl

/-- What is written for a double is read as that double, also if it is a zero. -/
theorem ofNumeral?_numeral (x : Binary64) : ofNumeral? x.numeral = some x := by
  rw [ofNumeral?_eq_some_iff]
  refine ⟨x.negative_numeral.symm, ?_⟩
  cases hx : x.isZero with
  | true =>
    have hordinal : x.ordinal.val = 0 := by simpa [isZero] using hx
    rw [magnitude_numeral_of_isZero hx, zero_mul, hordinal]
    exact mem_zero le_rfl (by norm_num)
  | false =>
    rw [magnitude_numeral hx]
    exact mem_shortest hx

/-- A numeral below the overflow is read as the double that is nearest to it, and no other. -/
theorem isNearest_ofNumeral? (h : |n.value| < overflow) : ∃ x, ofNumeral? n = some x ∧
    ∀ y : Binary64, y.IsNearest n.value ∧ y.negative = n.negative ↔ y = x := by
  obtain ⟨x, hx⟩ : ∃ x, ofNumeral? n = some x := by
    rw [← Option.ne_none_iff_exists', Ne, ofNumeral?_eq_none_iff, not_le, ← n.abs_value]
    exact h
  obtain ⟨hnegative, hmem⟩ := ofNumeral?_eq_some_iff.1 hx
  have hvalue : n.value = x.sign * n.magnitude := by rw [n.value_eq, sign, hnegative]
  refine ⟨x, hx, fun y => ⟨fun hy => ?_, ?_⟩⟩
  · exact eq_of_isNearest n.magnitude_nonneg hvalue hmem hy.1 (hy.2.trans hnegative.symm)
  · rintro rfl
    exact ⟨isNearest_of_mem n.magnitude_nonneg hvalue hmem, hnegative⟩

end Binary64

end SdlSchema
