import Mathlib.Algebra.Order.Field.Power
import Mathlib.Tactic.Ring
import SdlSchema.Binary64.Nearest
import SdlSchema.Proofs.Binary64.Interval
import SdlSchema.Proofs.Decimal.Digits

/-!
# Rounding stays in the interval

The ordinal that is found for a quotient is that of the interval in which the
quotient lies (`mem_nearestOrdinal`), in every block and where a block ends.
The two shortcuts of `nearest?` for very large and very small decimals change
nothing (`nearest?_eq`), and an ordinal is finite exactly if the decimal is
less than the point half way to the first magnitude that is not
(`lt_bound_iff`).
-/

namespace SdlSchema

/-! ## Rounded quotients -/

/-- A rounded quotient is half a unit away at most, and less than that if it is odd. -/
theorem roundDiv_spec (a : Nat) {b : Nat} (hb : 0 < b) :
    2 * (roundDiv a b * b) ≤ 2 * a + b ∧ 2 * a ≤ 2 * (roundDiv a b * b) + b ∧
      (roundDiv a b % 2 = 1 →
        2 * (roundDiv a b * b) < 2 * a + b ∧ 2 * a < 2 * (roundDiv a b * b) + b) := by
  have hdiv : a / b * b + a % b = a := by
    rw [Nat.mul_comm]
    exact Nat.div_add_mod a b
  have hlt : a % b < b := Nat.mod_lt a hb
  simp only [roundDiv]
  generalize a / b = q at hdiv
  generalize a % b = r at hdiv hlt
  have hsucc : (q + 1) * b = q * b + b := Nat.succ_mul q b
  split
  · omega
  · split
    · omega
    · rcases Nat.mod_two_eq_zero_or_one q with hq | hq
      · rw [hq, Nat.add_zero]
        omega
      · rw [hq]
        omega

theorem roundDiv_le {a b c : Nat} (hb : 0 < b) (h : a ≤ c * b) : roundDiv a b ≤ c := by
  obtain ⟨hbelow, -, hodd⟩ := roundDiv_spec a hb
  by_contra hlt
  have hmul : (c + 1) * b ≤ roundDiv a b * b := Nat.mul_le_mul_right b (by omega)
  rw [Nat.succ_mul] at hmul
  omega

theorem le_roundDiv {a b c : Nat} (hb : 0 < b) (h : c * b ≤ a) : c ≤ roundDiv a b := by
  obtain ⟨-, habove, hodd⟩ := roundDiv_spec a hb
  by_contra hlt
  have hmul : (roundDiv a b + 1) * b ≤ c * b := Nat.mul_le_mul_right b (by omega)
  rw [Nat.succ_mul] at hmul
  omega

namespace Binary64

/-! ## Magnitudes of one step

In steps of `2 ^ n`, the magnitudes from `block` to `2 * block` have ordinals
that follow each other; the least block has those below as well. -/

theorem units_scaled {n m : Nat} (hlow : n = 0 ∨ block ≤ m) (hhigh : m ≤ 2 * block) :
    units (n * block + m) = m * 2 ^ n := by
  rcases Nat.lt_or_ge m block with hm | hm
  · have hn : n = 0 := by omega
    subst hn
    rw [Nat.zero_mul, Nat.zero_add, units_of_lt hm, Nat.pow_zero, Nat.mul_one]
  · obtain ⟨r, rfl⟩ := Nat.exists_eq_add_of_le hm
    rcases Nat.lt_or_ge r block with hr | hr
    · have hi : n * block + (block + r) = (n + 1) * block + r := by ring
      rw [hi, units_block_add hr]
    · have hr' : r = block := by omega
      subst hr'
      have hi : n * block + (block + block) = (n + 1 + 1) * block + 0 := by ring
      rw [hi, units_block_add block_pos, Nat.pow_succ]
      ring

/-- The next magnitude is at least one step away. -/
theorem le_units_succ {n m : Nat} (hlow : n = 0 ∨ block ≤ m) (hhigh : m ≤ 2 * block) :
    (m + 1) * 2 ^ n ≤ units (n * block + m + 1) := by
  rcases Nat.lt_or_eq_of_le hhigh with hm | hm
  · rw [Nat.add_assoc, units_scaled (by omega) hm]
  · subst hm
    have hone : 1 < block := by decide
    have hi : n * block + 2 * block + 1 = (n + 1 + 1) * block + 1 := by ring
    calc (2 * block + 1) * 2 ^ n ≤ (2 * block + 2) * 2 ^ n := Nat.mul_le_mul_right _ (by omega)
      _ = (block + 1) * 2 ^ (n + 1) := by ring
      _ = units (n * block + 2 * block + 1) := by rw [hi, units_block_add hone]

theorem units_pred {n m : Nat} (hm : 0 < m) (hlow : n = 0 ∨ block < m) (hhigh : m ≤ 2 * block) :
    units (n * block + m - 1) = (m - 1) * 2 ^ n := by
  rw [Nat.add_sub_assoc hm, units_scaled (by omega) (by omega)]

theorem mod_two_mul_block_add (n m : Nat) : (n * block + m) % 2 = m % 2 := by
  have hblock : block % 2 = 0 := by decide
  rw [Nat.add_mod, Nat.mul_mod, hblock, Nat.mul_zero, Nat.zero_mod, Nat.zero_add, Nat.mod_mod]

/-! ## The place of a quotient

The quotient `a / b` lies among the magnitudes of step `2 ^ n`. -/

section Place

variable {a b n : Nat} (hb : 0 < b) (hplace : n = 0 ∨ block * (b * 2 ^ n) ≤ a)
  (hend : a < 2 * block * (b * 2 ^ n))

include hb hplace hend

theorem roundDiv_bounds :
    (n = 0 ∨ block ≤ roundDiv a (b * 2 ^ n)) ∧ roundDiv a (b * 2 ^ n) ≤ 2 * block :=
  have hstep : 0 < b * 2 ^ n := Nat.mul_pos hb (Nat.pow_pos (by decide))
  ⟨hplace.imp_right (le_roundDiv hstep), roundDiv_le hstep hend.le⟩

/-- The quotient is not below the lower end, and above it if the ordinal is odd. -/
theorem low_mul_le :
    let i := n * block + roundDiv a (b * 2 ^ n)
    (Interval.ofOrdinal i).low * b ≤ 2 * a ∧
      (roundDiv a (b * 2 ^ n) % 2 = 1 → (Interval.ofOrdinal i).low * b < 2 * a) := by
  obtain ⟨hlow, hhigh⟩ := roundDiv_bounds hb hplace hend
  have hstep : 0 < b * 2 ^ n := Nat.mul_pos hb (Nat.pow_pos (by decide))
  obtain ⟨hbelow, -, hodd⟩ := roundDiv_spec a hstep
  have hmiddle := units_scaled hlow hhigh
  generalize roundDiv a (b * 2 ^ n) = m at *
  intro i
  change (units (i - 1) + units i) * b ≤ 2 * a ∧ (m % 2 = 1 → (units (i - 1) + units i) * b < 2 * a)
  have hunits : units i * b = m * (b * 2 ^ n) := by rw [hmiddle]; ring
  rw [Nat.add_mul, hunits]
  rcases Nat.lt_or_ge a (m * (b * 2 ^ n)) with ha | ha
  · -- rounded up, so the magnitude is not the first of its block and the one below is a step away
    have hm : 0 < m := Nat.pos_of_mul_pos_right (Nat.zero_lt_of_lt ha)
    have hlow' : n = 0 ∨ block < m :=
      hplace.imp_right fun h => Nat.lt_of_mul_lt_mul_right (h.trans_lt ha)
    have hpred : units (i - 1) * b + b * 2 ^ n = m * (b * 2 ^ n) := by
      obtain ⟨k, rfl⟩ := Nat.exists_eq_add_one.2 hm
      rw [units_pred hm hlow' hhigh, Nat.add_sub_cancel]
      ring
    refine ⟨by omega, fun hm' => ?_⟩
    have hstrict := hodd hm'
    omega
  · have hpred : units (i - 1) * b ≤ units i * b :=
      Nat.mul_le_mul_right b (units_strictMono.monotone (Nat.sub_le i 1))
    refine ⟨by omega, fun hm' => ?_⟩
    have hi : i - 1 < i := by omega
    have hpred' : units (i - 1) * b < units i * b :=
      Nat.mul_lt_mul_of_pos_right (units_strictMono hi) hb
    omega

/-- The quotient is not above the upper end, and below it if the ordinal is odd. -/
theorem le_high_mul :
    let i := n * block + roundDiv a (b * 2 ^ n)
    2 * a ≤ (Interval.ofOrdinal i).high * b ∧
      (roundDiv a (b * 2 ^ n) % 2 = 1 → 2 * a < (Interval.ofOrdinal i).high * b) := by
  obtain ⟨hlow, hhigh⟩ := roundDiv_bounds hb hplace hend
  have hstep : 0 < b * 2 ^ n := Nat.mul_pos hb (Nat.pow_pos (by decide))
  obtain ⟨-, habove, hodd⟩ := roundDiv_spec a hstep
  have hmiddle := units_scaled hlow hhigh
  have hnext := le_units_succ hlow hhigh
  generalize roundDiv a (b * 2 ^ n) = m at *
  intro i
  change 2 * a ≤ (units i + units (i + 1)) * b ∧ (m % 2 = 1 → 2 * a < (units i + units (i + 1)) * b)
  have hunits : units i * b = m * (b * 2 ^ n) := by rw [hmiddle]; ring
  have hsucc : m * (b * 2 ^ n) + b * 2 ^ n ≤ units (i + 1) * b :=
    calc m * (b * 2 ^ n) + b * 2 ^ n = (m + 1) * 2 ^ n * b := by ring
      _ ≤ units (i + 1) * b := Nat.mul_le_mul_right b hnext
  rw [Nat.add_mul, hunits]
  refine ⟨by omega, fun hm => ?_⟩
  have hstrict := hodd hm
  omega

end Place

/-- The bit length of the quotient gives its place. -/
theorem place_bounds {a b : Nat} (hb : 0 < b) :
    let n := (a / b).log2 - 52
    (n = 0 ∨ block * (b * 2 ^ n) ≤ a) ∧ a < 2 * block * (b * 2 ^ n) := by
  intro n
  have hblock : block = 2 ^ 52 := rfl
  constructor
  · rcases Nat.eq_zero_or_pos n with hn | hn
    · exact Or.inl hn
    · right
      have hne : a / b ≠ 0 := by
        intro h
        simp only [n, h, Nat.log2_zero] at hn
        omega
      have heq : 2 ^ (a / b).log2 = block * 2 ^ n := by
        rw [hblock, ← Nat.pow_add]
        congr 1
        omega
      calc block * (b * 2 ^ n) = block * 2 ^ n * b := by ring
        _ ≤ a / b * b := Nat.mul_le_mul_right b (heq ▸ Nat.log2_self_le hne)
        _ ≤ a := Nat.div_mul_le_self a b
  · have hscale : 2 ^ ((a / b).log2 + 1) ≤ 2 * block * 2 ^ n := by
      rw [hblock, ← Nat.pow_succ', ← Nat.pow_add]
      exact Nat.pow_le_pow_right (by decide) (by omega)
    have hupper : a / b < 2 * block * 2 ^ n := Nat.lt_log2_self.trans_le hscale
    calc a < (2 * block * 2 ^ n) * b := (Nat.div_lt_iff_lt_mul hb).1 hupper
      _ = 2 * block * (b * 2 ^ n) := by ring

/-! ## The nearest ordinal -/

/-- `nearestOrdinal` for a quotient that is in multiples of the least magnitude already. -/
def unitsOrdinal (a b : Nat) : Nat :=
  let n := (a / b).log2 - 52
  n * block + roundDiv a (b * 2 ^ n)

theorem holds_unitsOrdinal (a : Nat) {b : Nat} (hb : 0 < b) :
    (Interval.ofOrdinal (unitsOrdinal a b)).holds (2 * a) b = true := by
  obtain ⟨hplace, hend⟩ := place_bounds (a := a) hb
  obtain ⟨hlow, hlow'⟩ := low_mul_le hb hplace hend
  obtain ⟨hhigh, hhigh'⟩ := le_high_mul hb hplace hend
  unfold unitsOrdinal Interval.holds
  split
  · simp only [Bool.and_eq_true, decide_eq_true_eq]
    exact ⟨hlow, hhigh⟩
  · next hopen =>
    have hodd : roundDiv a (b * 2 ^ ((a / b).log2 - 52)) % 2 = 1 := by
      simp only [Interval.ofOrdinal, mod_two_mul_block_add, decide_eq_true_eq] at hopen
      omega
    simp only [Bool.and_eq_true, decide_eq_true_eq]
    exact ⟨hlow' hodd, hhigh' hodd⟩

theorem mem_unitsOrdinal (a : Nat) {b : Nat} (hb : 0 < b) (places : Nat) :
    (Interval.ofOrdinal (unitsOrdinal (a * Nat.pow 2 places) b)).Mem
      ((a / b : ℚ) * 2 ^ (places + 1)) := by
  have hmem := (Interval.holds_iff _ _ hb).1 (holds_unitsOrdinal (a * Nat.pow 2 places) hb)
  have hscale : ((2 * (a * Nat.pow 2 places) : Nat) : ℚ) / b = a / b * 2 ^ (places + 1) := by
    rw [Nat.pow_eq]
    push_cast
    ring
  rwa [hscale] at hmem

theorem nearestOrdinal_eq (a b : Nat) {places : Nat} (h : places = 1074) :
    nearestOrdinal a b = unitsOrdinal (a * Nat.pow 2 places) b := by
  rw [nearestOrdinal, ← h]
  rfl

/-- A quotient lies in the interval of the ordinal that is found for it. -/
theorem mem_nearestOrdinal (a : Nat) {b : Nat} (hb : 0 < b) :
    (Interval.ofOrdinal (nearestOrdinal a b)).Mem ((a / b : ℚ) * 2 ^ 1075) := by
  obtain ⟨places, hplaces⟩ : ∃ places, places + 1 = 1075 := ⟨1074, rfl⟩
  rw [nearestOrdinal_eq a b (Nat.succ.inj hplaces), ← hplaces]
  exact mem_unitsOrdinal a hb places

/-! ## Decimals -/

/-- The ordinal nearest to `coefficient * 10 ^ scale`, without shortcuts. -/
def decimalOrdinal (coefficient : Nat) : Int → Nat
  | .ofNat k => nearestOrdinal (coefficient * Nat.pow 10 k) 1
  | .negSucc k => nearestOrdinal coefficient (Nat.pow 10 (k + 1))

theorem mem_decimalOrdinal (coefficient : Nat) (scale : Int) :
    (Interval.ofOrdinal (decimalOrdinal coefficient scale)).Mem
      (coefficient * (10 : ℚ) ^ scale * 2 ^ 1075) := by
  cases scale with
  | ofNat k =>
    have hmem := mem_nearestOrdinal (coefficient * Nat.pow 10 k) Nat.one_pos
    rw [Nat.cast_one, div_one, Nat.pow_eq, Nat.cast_mul, Nat.cast_pow] at hmem
    rwa [Int.ofNat_eq_natCast, zpow_natCast]
  | negSucc k =>
    have hpow : 0 < Nat.pow 10 (k + 1) := Nat.pow_pos (by decide)
    have hmem := mem_nearestOrdinal coefficient hpow
    rw [Nat.pow_eq, Nat.cast_pow] at hmem
    rwa [zpow_negSucc, ← div_eq_mul_inv]

theorem Interval.mem_of_closed {I : Interval} (hI : I.closed = true) {q : ℚ} (hlow : I.low ≤ q)
    (hhigh : q ≤ I.high) : I.Mem q := by
  rw [Mem, if_pos hI]
  exact ⟨hlow, hhigh⟩

theorem mem_zero {q : ℚ} (hlow : 0 ≤ q) (hhigh : q ≤ 1) : (Interval.ofOrdinal 0).Mem q := by
  have hone : units 1 = 1 := units_of_lt (by decide)
  apply Interval.mem_of_closed rfl
  · simpa [Interval.ofOrdinal, units_of_lt block_pos] using hlow
  · simpa [Interval.ofOrdinal, units_of_lt block_pos, hone] using hhigh

/-! ## The end of the finite magnitudes -/

/-- Half way from the greatest finite magnitude to the power of two above it. -/
def overflow : ℚ := 2 ^ 1024 - 2 ^ 970

theorem low_block (n : Nat) :
    ((Interval.ofOrdinal ((n + 2) * block)).low : ℚ) = (2 ^ 54 - 1) * 2 ^ n := by
  have hblock : block = 2 ^ 52 := rfl
  have hpred : (n + 2) * block - 1 = (n + 1) * block + (block - 1) := by
    rw [Nat.succ_mul (n + 1)]
    exact Nat.add_sub_assoc block_pos _
  have hlast : units ((n + 2) * block - 1) = (2 ^ 53 - 1) * 2 ^ n := by
    rw [hpred, units_block_add (Nat.sub_lt block_pos Nat.one_pos)]
    rfl
  have hfirst : units ((n + 2) * block) = 2 ^ 52 * 2 ^ (n + 1) := by
    have h := units_block_add (q := n + 1) block_pos
    rwa [Nat.add_zero, Nat.add_zero, hblock] at h
  have hlow : (Interval.ofOrdinal ((n + 2) * block)).low =
      (2 ^ 53 - 1) * 2 ^ n + 2 ^ 52 * 2 ^ (n + 1) := by
    rw [← hlast, ← hfirst]
    rfl
  rw [hlow, pow_succ]
  push_cast
  ring

theorem low_bound : ((Interval.ofOrdinal bound).low : ℚ) = overflow * 2 ^ 1075 := by
  have hsplit (p q : Nat) : ((2 : ℚ) ^ 54 - 1) * 2 ^ (p + q) = (2 ^ (p + 54) - 2 ^ p) * 2 ^ q := by
    ring
  exact (low_block 2045).trans (hsplit 970 1075)

/-- The finite ordinals are those to which decimals below the overflow round. -/
theorem lt_bound_iff {i : Nat} {q : ℚ} (h : (Interval.ofOrdinal i).Mem (q * 2 ^ 1075)) :
    i < bound ↔ q < overflow := by
  have hpow : (0 : ℚ) < 2 ^ 1075 := by positivity
  constructor
  · intro hi
    have hends : (Interval.ofOrdinal i).high ≤ (Interval.ofOrdinal bound).low :=
      Nat.add_le_add (units_strictMono.monotone (by omega)) (units_strictMono.monotone hi)
    have hcast : ((Interval.ofOrdinal i).high : ℚ) ≤ (Interval.ofOrdinal bound).low :=
      Nat.cast_le.2 hends
    rw [low_bound] at hcast
    refine lt_of_le_of_ne (le_of_mul_le_mul_right (h.le.2.trans hcast) hpow) fun hq => ?_
    -- the overflow itself belongs to the even ordinal behind the finite ones
    have hbound : (Interval.ofOrdinal bound).Mem (overflow * 2 ^ 1075) := by
      rw [← low_bound]
      have hle : (Interval.ofOrdinal bound).low ≤ (Interval.ofOrdinal bound).high :=
        Nat.add_le_add (units_strictMono.monotone (by omega)) (units_strictMono.monotone (by omega))
      exact Interval.mem_of_closed (by decide) le_rfl (Nat.cast_le.2 hle)
    have heq := Interval.ordinal_unique (hq ▸ h) hbound
    omega
  · intro hq
    by_contra hi
    have hends : (Interval.ofOrdinal bound).low ≤ (Interval.ofOrdinal i).low :=
      Nat.add_le_add (units_strictMono.monotone (by omega)) (units_strictMono.monotone (by omega))
    have hcast : ((Interval.ofOrdinal bound).low : ℚ) ≤ (Interval.ofOrdinal i).low :=
      Nat.cast_le.2 hends
    rw [low_bound] at hcast
    exact absurd (le_of_mul_le_mul_right (hcast.trans h.le.1) hpow) (not_le.2 hq)

/-! ## Shortcuts -/

section Leading

variable {c : Nat} {scale : Int}

open Decimal

theorem decimal_lt : (c : ℚ) * 10 ^ scale < 10 ^ ((digits c).length + scale) := by
  have hlt : (c : ℚ) < 10 ^ (digits c).length := mod_cast lt_pow_length_digits c
  rw [zpow_add₀ (by norm_num), zpow_natCast]
  exact mul_lt_mul_of_pos_right hlt (by positivity)

theorem le_decimal (hc : 0 < c) : (10 : ℚ) ^ ((digits c).length + scale - 1) ≤ c * 10 ^ scale := by
  have hlen : 0 < (digits c).length := List.length_pos_of_ne_nil (digits_ne_nil c)
  have hle : (10 : ℚ) ^ ((digits c).length - 1) ≤ c := mod_cast pow_length_digits_le hc
  have hscale : ((digits c).length : Int) + scale - 1 = ((digits c).length - 1 : Nat) + scale := by
    omega
  rw [hscale, zpow_add₀ (by norm_num), zpow_natCast]
  exact mul_le_mul_of_nonneg_right hle (by positivity)

theorem two_pow_le_ten_pow {m n : Nat} (h : 2 ^ m ≤ 10 ^ n) : (2 : ℚ) ^ m ≤ 10 ^ n := mod_cast h

theorem decimalOrdinal_eq_zero (h : c = 0 ∨ (digits c).length + scale < -330) :
    decimalOrdinal c scale = 0 := by
  refine Interval.ordinal_unique (mem_decimalOrdinal c scale) (mem_zero (by positivity) ?_)
  rcases h with rfl | h
  · simp
  · have hpow : (2 : ℚ) ^ 1075 ≤ 10 ^ 331 := two_pow_le_ten_pow (by decide +kernel)
    have hdecimal : (c : ℚ) * 10 ^ scale ≤ (10 ^ 331)⁻¹ :=
      calc (c : ℚ) * 10 ^ scale ≤ 10 ^ ((digits c).length + scale) := decimal_lt.le
        _ ≤ 10 ^ (-(331 : Nat) : Int) := zpow_le_zpow_right₀ (by norm_num) (by omega)
        _ = (10 ^ 331)⁻¹ := by rw [zpow_neg, zpow_natCast]
    calc (c : ℚ) * 10 ^ scale * 2 ^ 1075
        ≤ (10 ^ 331)⁻¹ * 10 ^ 331 := mul_le_mul hdecimal hpow (by positivity) (by positivity)
      _ = 1 := inv_mul_cancel₀ (by positivity)

theorem bound_le_decimalOrdinal (hc : 0 < c) (h : 310 < (digits c).length + scale) :
    bound ≤ decimalOrdinal c scale := by
  have hpow : (2 : ℚ) ^ 1024 ≤ 10 ^ 310 := two_pow_le_ten_pow (by decide +kernel)
  rw [← Nat.not_lt, lt_bound_iff (mem_decimalOrdinal c scale), not_lt]
  calc overflow ≤ 2 ^ 1024 := sub_le_self _ (by positivity)
    _ ≤ 10 ^ 310 := hpow
    _ = 10 ^ (310 : Int) := (zpow_natCast _ _).symm
    _ ≤ 10 ^ ((digits c).length + scale - 1) := zpow_le_zpow_right₀ (by norm_num) (by omega)
    _ ≤ c * 10 ^ scale := le_decimal hc

end Leading

theorem ofOrdinal?_eq_none_iff {negative : Bool} {i : Nat} :
    ofOrdinal? negative i = none ↔ bound ≤ i := by
  unfold ofOrdinal?
  split <;> simp <;> omega

/-- The shortcuts for very small and very large decimals change nothing. -/
theorem nearest?_eq (negative : Bool) (c : Nat) (scale : Int) :
    nearest? negative c scale = ofOrdinal? negative (decimalOrdinal c scale) := by
  simp only [nearest?]
  split
  · next h =>
    rw [decimalOrdinal_eq_zero h]
    rfl
  · next h =>
    split
    · next hlarge =>
      have hc : 0 < c := Nat.pos_of_ne_zero fun hc => h (Or.inl hc)
      exact (ofOrdinal?_eq_none_iff.2 (bound_le_decimalOrdinal hc hlarge)).symm
    · cases scale <;> rfl

end Binary64

end SdlSchema
