import Mathlib.Algebra.Order.Field.Rat
import Mathlib.Order.Monotone.Basic
import Mathlib.Tactic.FieldSimp
import Mathlib.Tactic.Linarith
import Mathlib.Tactic.Positivity
import SdlSchema.Binary64.Shortest

/-!
# Rounding intervals

The magnitudes increase strictly with their ordinals (`units_strictMono`), so
the intervals of decimals that round to them follow each other without
overlapping: neighbours share an end, and it counts only for the one with the
even ordinal.  A decimal lies in at most one interval (`ordinal_unique`).
-/

namespace SdlSchema.Binary64

/-! ## Magnitudes -/

theorem block_pos : 0 < block := by decide

theorem units_of_lt {i : Nat} (h : i < block) : units i = i := if_pos h

theorem units_block_add {q r : Nat} (h : r < block) :
    units ((q + 1) * block + r) = (block + r) * 2 ^ q := by
  have hle : ¬ (q + 1) * block + r < block := by
    rw [Nat.succ_mul]
    omega
  have hmod : ((q + 1) * block + r) % block = r := Nat.mul_add_mod_of_lt h
  have hdiv : ((q + 1) * block + r) / block = q + 1 := by
    rw [Nat.mul_comm, Nat.mul_add_div block_pos, Nat.div_eq_of_lt h, Nat.add_zero]
  rw [units, if_neg hle, hmod, hdiv]
  rfl

/-- Each magnitude is less than the next, also where a block ends and the step doubles. -/
theorem units_lt_succ (i : Nat) : units i < units (i + 1) := by
  rcases Nat.lt_or_ge i block with hi | hi
  · rw [units_of_lt hi]
    rcases Nat.lt_or_ge (i + 1) block with h | h
    · rw [units_of_lt h]
      omega
    · have hend : i + 1 = (0 + 1) * block + 0 := by omega
      rw [hend, units_block_add block_pos]
      omega
  · obtain ⟨q, hq⟩ : ∃ q, i / block = q + 1 :=
      Nat.exists_eq_add_one.2 (Nat.div_pos hi block_pos)
    have hr : i % block < block := Nat.mod_lt _ block_pos
    have hi' : i = (q + 1) * block + i % block := by
      rw [← hq, Nat.mul_comm, Nat.div_add_mod]
    generalize i % block = r at hr hi'
    have hpow : 0 < 2 ^ q := Nat.pow_pos (by decide)
    rw [hi', units_block_add hr]
    rcases Nat.lt_or_ge (r + 1) block with h | h
    · rw [Nat.add_assoc, units_block_add h]
      exact Nat.mul_lt_mul_of_pos_right (by omega) hpow
    · have hend : (q + 1) * block + r + 1 = (q + 1 + 1) * block + 0 := by
        rw [Nat.succ_mul (q + 1)]
        omega
      rw [hend, units_block_add block_pos, Nat.pow_succ, Nat.mul_comm (2 ^ q) 2,
        ← Nat.mul_assoc]
      exact Nat.mul_lt_mul_of_pos_right (by omega) hpow

theorem units_strictMono : StrictMono units := strictMono_nat_of_lt_succ units_lt_succ

/-! ## Membership -/

namespace Interval

/-- The rational, in multiples of 2⁻¹⁰⁷⁵, lies in the interval. -/
def Mem (I : Interval) (q : ℚ) : Prop :=
  if I.closed then I.low ≤ q ∧ q ≤ I.high else I.low < q ∧ q < I.high

theorem holds_iff (I : Interval) (x : Nat) {b : Nat} (hb : 0 < b) :
    I.holds x b = true ↔ I.Mem (x / b) := by
  have hb' : (0 : ℚ) < b := Nat.cast_pos.2 hb
  unfold holds Mem
  cases I.closed with
  | true =>
    simp only [if_true, Bool.and_eq_true, decide_eq_true_eq, le_div_iff₀ hb', div_le_iff₀ hb']
    norm_cast
  | false =>
    simp only [Bool.false_eq_true, if_false, Bool.and_eq_true, decide_eq_true_eq,
      lt_div_iff₀ hb', div_lt_iff₀ hb']
    norm_cast

theorem Mem.le {I : Interval} {q : ℚ} (h : I.Mem q) : I.low ≤ q ∧ q ≤ I.high := by
  unfold Mem at h
  split at h
  · exact h
  · exact ⟨h.1.le, h.2.le⟩

theorem Mem.lt {I : Interval} {q : ℚ} (h : I.Mem q) (hopen : I.closed = false) :
    I.low < q ∧ q < I.high := by
  simpa [Mem, hopen] using h

/-- The upper end of an interval is the lower end of the next, and belongs to one of them only. -/
theorem not_mem_of_lt {i j : Nat} (hij : i < j) {q : ℚ} (hi : (ofOrdinal i).Mem q) :
    ¬ (ofOrdinal j).Mem q := by
  intro hj
  have hhigh : q ≤ (ofOrdinal i).high := hi.le.2
  have hlow : (ofOrdinal j).low ≤ q := hj.le.1
  rcases Nat.lt_or_eq_of_le (Nat.succ_le_of_lt hij) with hlt | heq
  · have h₁ : units i < units (j - 1) := units_strictMono (by omega)
    have h₂ : units (i + 1) < units j := units_strictMono hlt
    have hends : (ofOrdinal i).high < (ofOrdinal j).low := Nat.add_lt_add h₁ h₂
    have hcast : ((ofOrdinal i).high : ℚ) < (ofOrdinal j).low := Nat.cast_lt.2 hends
    linarith
  · subst heq
    have hends : (ofOrdinal i).high = (ofOrdinal (i + 1)).low := rfl
    rcases Nat.mod_two_eq_zero_or_one i with hpar | hpar
    · have hopen : (ofOrdinal (i + 1)).closed = false := by
        simp only [ofOrdinal, decide_eq_false_iff_not]
        omega
      have hstrict := (hj.lt hopen).1
      rw [← hends] at hstrict
      linarith
    · have hopen : (ofOrdinal i).closed = false := by
        simp only [ofOrdinal, decide_eq_false_iff_not]
        omega
      have hstrict := (hi.lt hopen).2
      rw [hends] at hstrict
      linarith

/-- A decimal rounds to one magnitude at most. -/
theorem ordinal_unique {i j : Nat} {q : ℚ} (hi : (ofOrdinal i).Mem q)
    (hj : (ofOrdinal j).Mem q) : i = j := by
  rcases Nat.lt_trichotomy i j with h | h | h
  · exact absurd hj (not_mem_of_lt h hi)
  · exact h
  · exact absurd hi (not_mem_of_lt h hj)

theorem pos_of_mem {i : Nat} (h : 0 < i) {q : ℚ} (hq : (ofOrdinal i).Mem q) : 0 < q := by
  have hunits : units 0 < units i := units_strictMono h
  have hlow : 0 < (ofOrdinal i).low := by
    simp only [ofOrdinal]
    omega
  have hcast : (0 : ℚ) < (ofOrdinal i).low := Nat.cast_pos.2 hlow
  linarith [hq.le.1]

end Interval

end SdlSchema.Binary64
