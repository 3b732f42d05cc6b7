import Mathlib.Data.List.DropRight
import SdlSchema.Proofs.Binary64.Value

/-!
# The shortest decimal has the fewest digits

A grid on which nothing is found has no point in the interval
(`not_mem_of_gridPointAt`), and no decimal on a grid coarser than that of the
shortest one lies in the interval (`no_coarser`).  A decimal with fewer digits
in the interval would leave a power of ten between itself and the shortest one,
and that is on a coarser grid (`length_le_of_mem`).
-/

namespace SdlSchema

/-! ## Significant digits -/

namespace Decimal

theorem length_digits_mono {m n : Nat} (hm : 0 < m) (h : m ≤ n) :
    (digits m).length ≤ (digits n).length := by
  have hpow : 10 ^ ((digits m).length - 1) < 10 ^ (digits n).length :=
    (pow_length_digits_le hm).trans_lt (h.trans_lt (lt_pow_length_digits n))
  have hlt := (Nat.pow_lt_pow_iff_right (by decide)).1 hpow
  omega

def Digit.isZero (d : Digit) : Bool := d.val = 0

theorem Digit.isZero_iff {d : Digit} : d.isZero = true ↔ d = 0 := by
  rw [isZero, decide_eq_true_eq, Fin.ext_iff]
  rfl

theorem ofDigits_dropWhile (ds : List Digit) :
    ofDigits (ds.dropWhile Digit.isZero) = ofDigits ds := by
  induction ds with
  | nil => rfl
  | cons d ds ih =>
    by_cases hd : d.isZero = true
    · rw [List.dropWhile_cons_of_pos hd, ih, ofDigits_cons, Digit.isZero_iff.1 hd]
      simp
    · rw [List.dropWhile_cons_of_neg hd]

/-- Zeros at the end are a power of ten. -/
theorem ofDigits_rdropWhile (ds : List Digit) :
    ∃ k, ofDigits ds = ofDigits (ds.rdropWhile Digit.isZero) * 10 ^ k := by
  induction ds using List.reverseRecOn with
  | nil => exact ⟨0, rfl⟩
  | append_singleton ds d ih =>
    by_cases hd : d.isZero = true
    · obtain ⟨k, hk⟩ := ih
      refine ⟨k + 1, ?_⟩
      rw [List.rdropWhile_concat_pos _ _ _ hd, ofDigits_concat, hk, Digit.isZero_iff.1 hd, pow_succ,
        Fin.val_zero, Nat.add_zero]
      ring
    · refine ⟨0, ?_⟩
      rw [List.rdropWhile_concat_neg _ _ _ hd, pow_zero, Nat.mul_one]

namespace Numeral

/-- The digits in front of the exponent, without the zeros at their start and at their end. -/
def significant (n : Numeral) : List Digit :=
  ((digits n.whole ++ n.fraction).dropWhile Digit.isZero).rdropWhile Digit.isZero

theorem head?_significant (n : Numeral) : n.significant.head? ≠ some 0 := by
  intro h
  obtain ⟨tail, htail⟩ := List.rdropWhile_prefix Digit.isZero
    ((digits n.whole ++ n.fraction).dropWhile Digit.isZero)
  have hfirst := List.head?_dropWhile_not Digit.isZero (digits n.whole ++ n.fraction)
  rw [← htail, List.head?_append, ← significant, h, Option.some_or] at hfirst
  exact absurd hfirst (by decide)

theorem significant_mod_ten {n : Numeral} (h : n.significant ≠ []) :
    ofDigits n.significant % 10 ≠ 0 := by
  have hlast : n.significant.getLast h ≠ 0 := fun hzero =>
    List.rdropWhile_last_not _ _ h (Digit.isZero_iff.2 hzero)
  have hlt := (n.significant.getLast h).isLt
  have hne : (n.significant.getLast h).val ≠ 0 := fun hzero => hlast (Fin.ext hzero)
  rw [← List.dropLast_append_getLast h, ofDigits_concat]
  omega

/-- The significant digits are those of a number that differs from the magnitude by a power of ten
only. -/
theorem magnitude_eq_significant {n : Numeral} (h : 0 < n.magnitude) :
    n.significant ≠ [] ∧ digits (ofDigits n.significant) = n.significant ∧
      ∃ e : Int, n.magnitude = ofDigits n.significant * (10 : ℚ) ^ e := by
  obtain ⟨k, hk⟩ := ofDigits_rdropWhile ((digits n.whole ++ n.fraction).dropWhile Digit.isZero)
  have hcoefficient : n.coefficient = ofDigits n.significant * 10 ^ k := by
    rw [significant, ← hk, ofDigits_dropWhile, ofDigits_append, ofDigits_digits]
    rfl
  have hmagnitude : n.magnitude = ofDigits n.significant * (10 : ℚ) ^ (k + n.scale) := by
    rw [magnitude, hcoefficient, zpow_add₀ (by norm_num), zpow_natCast]
    push_cast
    ring
  have hne : n.significant ≠ [] := by
    intro hnil
    simp [hmagnitude, hnil] at h
  exact ⟨hne, digits_ofDigits hne n.head?_significant, _, hmagnitude⟩

/-- Two decimals of one magnitude differ by zeros at the end of that on the finer grid. -/
theorem eq_mul_pow {c d t : Nat} {e : Int} (h : (c : ℚ) * 10 ^ e = d * 10 ^ (e + t)) :
    c = d * 10 ^ t := by
  have hten : (10 : ℚ) ^ e ≠ 0 := by positivity
  rw [zpow_add₀ (by norm_num), zpow_natCast, mul_comm ((10 : ℚ) ^ e), ← mul_assoc] at h
  exact_mod_cast mul_right_cancel₀ hten h

/-- A decimal of the same magnitude has at least the significant digits. -/
theorem length_significant_le {n : Numeral} (h : 0 < n.magnitude) {c : Nat} {e : Int}
    (hc : n.magnitude = c * (10 : ℚ) ^ e) : n.significant.length ≤ (digits c).length := by
  obtain ⟨hne, hdigits, f, hf⟩ := magnitude_eq_significant h
  have hpos : 0 < ofDigits n.significant := ofDigits_pos hne n.head?_significant
  rw [hf] at hc
  rcases Int.le_total e f with hle | hle
  · obtain ⟨t, rfl⟩ := Int.le.dest hle
    have hmul : c = ofDigits n.significant * 10 ^ t := eq_mul_pow hc.symm
    have hmono := length_digits_mono hpos
      (hmul ▸ Nat.le_mul_of_pos_right _ (Nat.pow_pos (by decide)))
    rwa [hdigits] at hmono
  · obtain ⟨t, rfl⟩ := Int.le.dest hle
    have hmul : ofDigits n.significant = c * 10 ^ t := eq_mul_pow hc
    cases t with
    | zero => rw [← hdigits, hmul, Nat.pow_zero, Nat.mul_one]
    | succ t =>
      refine absurd ?_ (significant_mod_ten hne)
      rw [hmul, Nat.pow_succ, ← Nat.mul_assoc, Nat.mul_mod_left]

end Numeral

end Decimal

namespace Binary64

open Decimal

namespace Interval

/-! ## Grids without a point -/

theorem holds_of_between {I : Interval} {x y z b : Nat} (hx : I.holds x b = true)
    (hz : I.holds z b = true) (hxy : x ≤ y) (hyz : y ≤ z) : I.holds y b = true := by
  obtain ⟨low, middle, high, closed⟩ := I
  unfold holds at *
  cases closed with
  | true =>
    simp only [if_true, Bool.and_eq_true, decide_eq_true_eq] at hx hz ⊢
    exact ⟨hx.1.trans hxy, hyz.trans hz.2⟩
  | false =>
    simp only [Bool.false_eq_true, if_false, Bool.and_eq_true, decide_eq_true_eq] at hx hz ⊢
    exact ⟨hx.1.trans_le hxy, hyz.trans_lt hz.2⟩

theorem Mem.between {I : Interval} {p q r : ℚ} (hp : I.Mem p) (hr : I.Mem r) (hpq : p ≤ q)
    (hqr : q ≤ r) : I.Mem q := by
  obtain ⟨low, middle, high, closed⟩ := I
  unfold Mem at *
  cases closed with
  | true =>
    simp only [if_true] at hp hr ⊢
    exact ⟨hp.1.trans hpq, hqr.trans hr.2⟩
  | false =>
    simp only [Bool.false_eq_true, if_false] at hp hr ⊢
    exact ⟨hp.1.trans_le hpq, hqr.trans_lt hr.2⟩

/-- If both neighbours of the middle are outside, then so are all multiples. -/
theorem not_holds_of_nearestMultiple? {i a b : Nat} (hi : 0 < i) (ha : 0 < a) (hb : 0 < b)
    (h : (ofOrdinal i).nearestMultiple? a b = none) (m : Nat) :
    ¬ (ofOrdinal i).holds (m * a) b = true := by
  intro hm
  have hmiddle := holds_middle hi hb
  have hbelow : (ofOrdinal i).middle * b / a * a ≤ (ofOrdinal i).middle * b :=
    Nat.div_mul_le_self _ a
  have habove : (ofOrdinal i).middle * b ≤ ((ofOrdinal i).middle * b / a + 1) * a := by
    rw [Nat.mul_comm _ a]
    exact (Nat.lt_mul_div_succ _ ha).le
  simp only [nearestMultiple?] at h
  generalize (ofOrdinal i).middle * b / a = n at h hbelow habove
  rcases Nat.lt_or_ge n m with hmn | hmn
  · have hnext := holds_of_between hmiddle hm habove (Nat.mul_le_mul_right a hmn)
    cases hn : (ofOrdinal i).holds (n * a) b <;> simp [hn, hnext] at h
  · have hlast := holds_of_between hm hmiddle (Nat.mul_le_mul_right a hmn) hbelow
    cases hn : (ofOrdinal i).holds ((n + 1) * a) b <;> simp [hn, hlast] at h

theorem not_mem_of_gridPointAt {places i : Nat} (hi : 0 < i) {k : Int}
    (h : (ofOrdinal i).gridPointAt places k = none) (m : Nat) :
    ¬ (ofOrdinal i).Mem (m * (10 : ℚ) ^ k * 2 ^ places) := by
  have htwo : 0 < Nat.pow 2 places := Nat.pow_pos (by decide)
  cases k with
  | ofNat k =>
    have hmiss :=
      not_holds_of_nearestMultiple? hi (Nat.mul_pos (ten_pow_pos k) htwo) Nat.one_pos h m
    rw [holds_iff _ _ Nat.one_pos] at hmiss
    convert hmiss using 2
    rw [Int.ofNat_eq_natCast, zpow_natCast, Nat.pow_eq, Nat.pow_eq]
    push_cast
    ring
  | negSucc k =>
    have hmiss := not_holds_of_nearestMultiple? hi htwo (ten_pow_pos (k + 1)) h m
    rw [holds_iff _ _ (ten_pow_pos (k + 1))] at hmiss
    convert hmiss using 2
    rw [zpow_negSucc, Nat.pow_eq, Nat.pow_eq]
    push_cast
    ring

/-- The search passes over grids without a point only. -/
theorem gridPoint?_above_coarsest (I : Interval) {k j : Int} {n : Nat}
    (hlow : (I.coarsest k n).2 < j) (hhigh : j ≤ k) : I.gridPoint? j = none := by
  induction n generalizing k with
  | zero =>
    simp only [coarsest] at hlow
    omega
  | succ n ih =>
    simp only [coarsest] at hlow
    cases hk : I.gridPoint? k with
    | some d =>
      simp only [hk] at hlow
      omega
    | none =>
      simp only [hk] at hlow
      rcases Int.lt_or_eq_of_le hhigh with hj | rfl
      · exact ih hlow (by omega)
      · exact hk

/-- On the grids beyond that at which the search starts, every multiple is above the interval. -/
theorem not_mem_of_length_lt {i places : Nat} (hi : 0 < i) {j : Int}
    (hj : (digits ((ofOrdinal i).high / Nat.pow 2 places)).length < j) (m : Nat) :
    ¬ (ofOrdinal i).Mem (m * (10 : ℚ) ^ j * 2 ^ places) := by
  intro hm
  have hpow : 0 < 2 ^ places := Nat.pow_pos (by decide)
  have hlt :=
    (Nat.div_lt_iff_lt_mul hpow).1 (lt_pow_length_digits ((ofOrdinal i).high / 2 ^ places))
  have hhigh : ((ofOrdinal i).high : ℚ) <
      10 ^ (digits ((ofOrdinal i).high / 2 ^ places)).length * 2 ^ places := by
    exact_mod_cast hlt
  have hpos : (0 : ℚ) < m * (10 ^ j * 2 ^ places) := mul_assoc (m : ℚ) _ _ ▸ pos_of_mem hi hm
  have hm0 : (0 : ℚ) < m := pos_of_mul_pos_left hpos (by positivity)
  have hm1 : (1 : ℚ) ≤ m := by exact_mod_cast hm0
  refine absurd (hhigh.trans_le (le_trans ?_ hm.le.2)) (lt_irrefl _)
  gcongr
  calc (10 : ℚ) ^ (digits ((ofOrdinal i).high / 2 ^ places)).length
      ≤ 10 ^ j := by rw [← zpow_natCast]; exact zpow_le_zpow_right₀ (by norm_num) hj.le
    _ ≤ m * 10 ^ j := le_mul_of_one_le_left (by positivity) hm1

end Interval

/-! ## The coarsest grid -/

section Shortest

variable {x : Binary64}

/-- No decimal on a coarser grid than that of the shortest one rounds to the double. -/
theorem no_coarser (hx : x.isZero = false) {j : Int} (hj : x.shortest.scale < j) (m : Nat) :
    ¬ (Interval.ofOrdinal x.ordinal).Mem (m * (10 : ℚ) ^ j * 2 ^ 1075) := by
  have hpos : 0 < x.ordinal.val := Nat.pos_of_ne_zero (by simpa [isZero] using hx)
  simp only [shortest] at hj
  rcases lt_or_ge
    ((digits ((Interval.ofOrdinal x.ordinal).high / Nat.pow 2 1075)).length : Int) j with hlt | hle
  · exact Interval.not_mem_of_length_lt hpos hlt m
  · have hnone := Interval.gridPoint?_above_coarsest _ hj hle
    rw [Interval.gridPoint?_eq _ _ rfl] at hnone
    exact Interval.not_mem_of_gridPointAt hpos hnone m

/-- A decimal that rounds to the double has at least as many digits as the shortest one. -/
theorem length_le_of_mem (hx : x.isZero = false) {c : Nat} {e : Int}
    (h : (Interval.ofOrdinal x.ordinal).Mem (c * (10 : ℚ) ^ e * 2 ^ 1075)) :
    x.shortest.digits.length ≤ (digits c).length := by
  have hshortest := mem_shortest hx
  have hvalue := value_shortest_pos hx
  have hcoarser := @no_coarser x hx
  obtain ⟨d, hd⟩ := exists_digits_shortest x
  simp only [Shortest.value, hd, ofDigits_digits] at hshortest hvalue ⊢
  generalize x.shortest.scale = s at hshortest hvalue hcoarser
  have hscale : e ≤ s := by
    by_contra hlt
    exact hcoarser (by omega) c h
  have hd0 : 0 < d := Nat.pos_of_ne_zero fun hzero => by simp [hzero] at hvalue
  by_contra hshorter
  have hlen : 0 < (digits c).length := List.length_pos_of_ne_nil (digits_ne_nil c)
  -- a power of ten lies between the two decimals
  have hpow : ((10 ^ ((digits d).length - 2) : Nat) : ℚ) * 10 ^ (s + 1) =
      10 ^ ((digits d).length + s - 1) := by
    rw [Nat.cast_pow, Nat.cast_ofNat, ← zpow_natCast, ← zpow_add₀ (by norm_num)]
    congr 1
    omega
  have hbelow : (c : ℚ) * 10 ^ e ≤ 10 ^ ((digits d).length + s - 1) :=
    decimal_lt.le.trans (zpow_le_zpow_right₀ (by norm_num) (by omega))
  have habove : (10 : ℚ) ^ ((digits d).length + s - 1) ≤ d * 10 ^ s := le_decimal hd0
  have htwo : (0 : ℚ) ≤ 2 ^ 1075 := by positivity
  have hbetween := h.between hshortest (mul_le_mul_of_nonneg_right hbelow htwo)
    (mul_le_mul_of_nonneg_right habove htwo)
  rw [← hpow] at hbetween
  exact hcoarser (by omega) _ hbetween

theorem magnitude_pos_of_ofNumeral? {n : Numeral} (hx : x.isZero = false)
    (h : ofNumeral? n = some x) : 0 < n.magnitude := by
  have hpos : 0 < x.ordinal.val := Nat.pos_of_ne_zero (by simpa [isZero] using hx)
  exact pos_of_mul_pos_left (Interval.pos_of_mem hpos (ofNumeral?_eq_some_iff.1 h).2)
    (by positivity)

/-- No numeral that is read as the double has fewer significant digits than its text. -/
theorem length_significant_numeral_le {n : Numeral} (hx : x.isZero = false)
    (h : ofNumeral? n = some x) : x.numeral.significant.length ≤ n.significant.length := by
  obtain ⟨-, hmem⟩ := ofNumeral?_eq_some_iff.1 h
  obtain ⟨-, hdigits, e, he⟩ := Numeral.magnitude_eq_significant (magnitude_pos_of_ofNumeral? hx h)
  have hmagnitude := magnitude_numeral hx
  obtain ⟨d, hd⟩ := exists_digits_shortest x
  calc x.numeral.significant.length ≤ (digits d).length := by
        apply Numeral.length_significant_le (hmagnitude ▸ value_shortest_pos hx)
        rw [hmagnitude, Shortest.value, hd, ofDigits_digits]
    _ = x.shortest.digits.length := by rw [hd]
    _ ≤ (digits (ofDigits n.significant)).length := length_le_of_mem hx (he ▸ hmem)
    _ = n.significant.length := by rw [hdigits]

end Shortest

end Binary64

end SdlSchema
