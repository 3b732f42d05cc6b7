import Mathlib.Algebra.Order.Field.Power
import Mathlib.Tactic.Ring
import SdlSchema.Proofs.Binary64.Interval
import SdlSchema.Proofs.Decimal.Digits

/-!
# The shortest decimal rounds to its double

The search for the coarsest grid ends with a grid that has a point in the
rounding interval, because the finest one holds the magnitude itself
(`gridPointAt_finest`).  So the decimal that is found lies in the interval of
the double for which it was sought (`mem_shortest`).
-/

namespace SdlSchema.Binary64

namespace Interval

/-- `gridPoint?` with any number of binary places in place of 1075. -/
def gridPointAt (places : Nat) (I : Interval) : Int → Option Nat
  | .ofNat k => I.nearestMultiple? (Nat.pow 10 k * Nat.pow 2 places) 1
  | .negSucc k => I.nearestMultiple? (Nat.pow 2 places) (Nat.pow 10 (k + 1))

theorem gridPoint?_eq (I : Interval) (k : Int) {places : Nat} (h : places = 1075) :
    I.gridPoint? k = I.gridPointAt places k := by
  cases k <;> rw [gridPoint?, gridPointAt, ← h]

/-! ## Points of a grid -/

theorem ten_pow_pos (n : Nat) : 0 < Nat.pow 10 n := Nat.pow_pos (by decide)

theorem holds_nearestMultiple? {I : Interval} {a b d : Nat}
    (h : I.nearestMultiple? a b = some d) : I.holds (d * a) b = true := by
  simp only [nearestMultiple?] at h
  generalize I.middle * b / a = n at h
  cases hlow : I.holds (n * a) b <;> cases hhigh : I.holds ((n + 1) * a) b <;>
    simp only [hlow, hhigh, reduceCtorEq, Option.some.injEq] at h
  · exact h ▸ hhigh
  · exact h ▸ hlow
  · -- both neighbours lie in the interval, whichever is nearer
    have hd : d = n ∨ d = n + 1 := by
      split at h
      · exact Or.inl h.symm
      · split at h
        · exact Or.inr h.symm
        · omega
    rcases hd with rfl | rfl
    · exact hlow
    · exact hhigh

theorem mem_nearestMultiple? {I : Interval} {a b d : Nat} (hb : 0 < b)
    (h : I.nearestMultiple? a b = some d) : I.Mem (d * a / b) := by
  have hmem := (I.holds_iff _ hb).1 (holds_nearestMultiple? h)
  rwa [Nat.cast_mul] at hmem

/-- A point of the grid of step `10 ^ k` that was found is a decimal in the interval. -/
theorem mem_gridPointAt {places : Nat} {I : Interval} {k : Int} {d : Nat}
    (h : I.gridPointAt places k = some d) : I.Mem (d * (10 : ℚ) ^ k * 2 ^ places) := by
  cases k with
  | ofNat k =>
    have hmem := mem_nearestMultiple? Nat.one_pos h
    convert hmem using 1
    rw [Int.ofNat_eq_natCast, zpow_natCast, Nat.pow_eq, Nat.pow_eq]
    push_cast
    ring
  | negSucc k =>
    have hmem := mem_nearestMultiple? (ten_pow_pos (k + 1)) h
    convert hmem using 1
    rw [zpow_negSucc, Nat.pow_eq, Nat.pow_eq]
    push_cast
    ring

/-! ## The search -/

theorem mul_five_pow (u n : Nat) : u * 5 ^ n * Nat.pow 2 (n + 1) = 2 * u * Nat.pow 10 n := by
  change u * 5 ^ n * 2 ^ (n + 1) = 2 * u * 10 ^ n
  rw [show (10 : Nat) ^ n = 2 ^ n * 5 ^ n from Nat.mul_pow 2 5 n]
  ring

/-- A magnitude lies inside its own interval. -/
theorem low_lt_middle {i : Nat} (hi : 0 < i) : (ofOrdinal i).low < (ofOrdinal i).middle := by
  have hprev : units (i - 1) < units i := units_strictMono (by omega)
  simp only [ofOrdinal]
  omega

theorem middle_lt_high (i : Nat) : (ofOrdinal i).middle < (ofOrdinal i).high := by
  have hnext := units_lt_succ i
  simp only [ofOrdinal]
  omega

theorem holds_middle {i b : Nat} (hi : 0 < i) (hb : 0 < b) :
    (ofOrdinal i).holds ((ofOrdinal i).middle * b) b = true := by
  have hlow := Nat.mul_lt_mul_of_pos_right (low_lt_middle hi) hb
  have hhigh := Nat.mul_lt_mul_of_pos_right (middle_lt_high i) hb
  rw [holds]
  split
  · simp only [Bool.and_eq_true, decide_eq_true_eq]
    exact ⟨hlow.le, hhigh.le⟩
  · simp only [Bool.and_eq_true, decide_eq_true_eq]
    exact ⟨hlow, hhigh⟩

/-- The middle of an interval is found on every grid on which it lies. -/
theorem nearestMultiple?_middle {i m a b : Nat} (hi : 0 < i) (ha : 0 < a) (hb : 0 < b)
    (h : m * a = (ofOrdinal i).middle * b) : ∃ d, (ofOrdinal i).nearestMultiple? a b = some d := by
  have hquot : (ofOrdinal i).middle * b / a = m := by
    rw [← h, Nat.mul_div_cancel _ ha]
  have hholds : (ofOrdinal i).holds (m * a) b = true := h ▸ holds_middle hi hb
  simp only [nearestMultiple?, hquot, hholds]
  cases (ofOrdinal i).holds ((m + 1) * a) b with
  | true => exact ⟨_, rfl⟩
  | false => exact ⟨_, rfl⟩

/-- With one more binary place than decimal places, every magnitude lies on the grid itself. -/
theorem gridPointAt_finest {i : Nat} (hi : 0 < i) (places : Nat) :
    ∃ d, (ofOrdinal i).gridPointAt (places + 2) (.negSucc places) = some d := by
  have hone : 0 < Nat.pow 2 (places + 2) := Nat.pow_pos (by decide)
  exact nearestMultiple?_middle hi hone (ten_pow_pos _) (mul_five_pow (units i) (places + 1))

/-- The search ends with the first grid that has a point, if there is one within its reach. -/
theorem gridPoint?_coarsest (I : Interval) {k : Int} {n : Nat}
    (h : ∃ d, I.gridPoint? (k - n) = some d) :
    I.gridPoint? (I.coarsest k n).2 = some (I.coarsest k n).1 := by
  induction n generalizing k with
  | zero =>
    obtain ⟨d, hd⟩ := h
    rw [Int.natCast_zero, Int.sub_zero] at hd
    simp [coarsest, hd]
  | succ n ih =>
    cases hk : I.gridPoint? k with
    | some d => simp [coarsest, hk]
    | none =>
      have hstep : k - 1 - n = k - (n + 1 : Nat) := by omega
      simp only [coarsest, hk]
      exact ih (hstep ▸ h)

end Interval

/-- The number that a shortest decimal stands for. -/
def Shortest.value (s : Shortest) : ℚ := Decimal.ofDigits s.digits * 10 ^ s.scale

/-- The decimal that is found for a double lies in its interval. -/
theorem mem_shortest {x : Binary64} (h : x.isZero = false) :
    (Interval.ofOrdinal x.ordinal).Mem (x.shortest.value * 2 ^ 1075) := by
  have hpos : 0 < x.ordinal.val := Nat.pos_of_ne_zero (by simpa [isZero] using h)
  have hfinest : ∃ d, (Interval.ofOrdinal x.ordinal).gridPoint? (-1074) = some d := by
    rw [Interval.gridPoint?_eq _ _ rfl]
    exact Interval.gridPointAt_finest hpos 1073
  simp only [shortest, Shortest.value, Decimal.ofDigits_digits]
  generalize (Decimal.digits _).length = k
  have hend : (k : Int) - (k + 1074 : Nat) = -1074 := by omega
  have hfound := Interval.gridPoint?_coarsest _ (hend ▸ hfinest)
  rw [Interval.gridPoint?_eq _ _ rfl] at hfound
  exact Interval.mem_gridPointAt hfound

end SdlSchema.Binary64
