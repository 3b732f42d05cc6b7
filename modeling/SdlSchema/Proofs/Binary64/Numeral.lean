import SdlSchema.Proofs.Binary64.Shortest
import SdlSchema.Proofs.Decimal.Numeral

/-!
# The text of a double is a numeral

The text of a double is that of a numeral with a point or an exponent
(`chars_numeral`), and the value of the numeral is that of the shortest decimal
(`magnitude_numeral`).  As a decimal lies in one rounding interval at most, the
text determines the double (`chars_injective`).
-/

namespace SdlSchema

open Decimal

/-! ## The value of a numeral -/

namespace Decimal

/-- The number that a numeral stands for, apart from its sign. -/
def Numeral.magnitude (n : Numeral) : ℚ := n.coefficient * (10 : ℚ) ^ n.scale

theorem natChars_zero : natChars 0 = ['0'] := by
  rw [natChars, digits_of_lt (by decide)]
  rfl

theorem natChars_ofDigits {ds : List Digit} (hne : ds ≠ []) (hhead : ds.head? ≠ some 0) :
    natChars (ofDigits ds) = ds.map Digit.toChar := by
  rw [natChars, digits_ofDigits hne hhead]

/-- Zeros behind the digits are a power of ten. -/
theorem natChars_mul_pow {ds : List Digit} (hne : ds ≠ []) (hhead : ds.head? ≠ some 0) (k : Nat) :
    natChars (ofDigits ds * 10 ^ k) = ds.map Digit.toChar ++ List.replicate k '0' := by
  have happend : ofDigits (ds ++ List.replicate k 0) = ofDigits ds * 10 ^ k := by
    rw [ofDigits_append, List.length_replicate, ofDigits_replicate_zero, Nat.add_zero]
  have hhead' : (ds ++ List.replicate k 0).head? ≠ some 0 := by
    rwa [List.head?_append_of_ne_nil _ hne]
  rw [← happend, natChars_ofDigits (by simp [hne]) hhead', List.map_append, List.map_replicate]
  rfl

/-- The exponent that is written with a sign. -/
def Exponent.signed (e : Int) : Exponent where
  upper := false
  sign := if e < 0 then .minus else .plus
  first := (digits e.natAbs).head (digits_ne_nil _)
  more := (digits e.natAbs).tail

theorem Exponent.value_signed (e : Int) : (signed e).value = e := by
  have hdigits : ofDigits ((signed e).first :: (signed e).more) = e.natAbs := by
    simp only [signed, List.cons_head_tail, ofDigits_digits]
  rw [value, hdigits, signed]
  by_cases he : e < 0
  · simp only [he, if_true]
    omega
  · simp only [he, if_false]
    omega

theorem Exponent.chars_signed (e : Int) :
    (signed e).chars = 'e' :: (if e < 0 then '-' else '+') :: natChars e.natAbs := by
  simp only [chars, signed, List.cons_head_tail, natChars]
  by_cases he : e < 0
  · simp only [he, if_true]
    rfl
  · simp only [he, if_false]
    rfl

end Decimal

namespace Binary64

/-! ## The two notations -/

def positionalNumeral (negative : Bool) (ds : List Digit) : Int → Numeral
  | .ofNat n =>
    if n = 0 then ⟨negative, 0, ds, none⟩
    else if ds.length ≤ n then ⟨negative, ofDigits ds * 10 ^ (n - ds.length), [.zero], none⟩
    else ⟨negative, ofDigits (ds.take n), ds.drop n, none⟩
  | .negSucc n => ⟨negative, 0, List.replicate (n + 1) .zero ++ ds, none⟩

def scientificNumeral (negative : Bool) (ds : List Digit) (e : Int) : Numeral :=
  ⟨negative, ofDigits (ds.take 1), ds.drop 1, some (.signed e)⟩

section Notations

variable {ds : List Digit} (negative : Bool)

theorem chars_positionalNumeral (hne : ds ≠ []) (hhead : ds.head? ≠ some 0) (n : Int) :
    (positionalNumeral negative ds n).chars =
      (if negative then ['-'] else []) ++ positional ds n := by
  obtain ⟨d, ds', rfl⟩ := List.exists_cons_of_ne_nil hne
  rw [Numeral.chars_eq]
  cases n with
  | negSucc n =>
    cases negative <;>
      simp [positionalNumeral, positional, natChars_zero, Numeral.fractionChars,
        Numeral.exponentChars, List.replicate_succ]
  | ofNat n =>
    simp only [positionalNumeral, positional, List.length_map]
    split
    · simp [natChars_zero, Numeral.fractionChars, Numeral.exponentChars]
    · next hn =>
      split
      · simp [natChars_mul_pow hne hhead, Numeral.fractionChars, Numeral.exponentChars]
      · next hlen =>
        have htake : natChars (ofDigits ((d :: ds').take n)) =
            ((d :: ds').take n).map Digit.toChar :=
          natChars_ofDigits (by simpa using hn) (by rwa [List.head?_take, if_neg hn])
        have hdrop : Numeral.fractionChars ((d :: ds').drop n) =
            '.' :: ((d :: ds').drop n).map Digit.toChar := by
          have hne' : (d :: ds').drop n ≠ [] := by simpa using hlen
          cases h : (d :: ds').drop n with
          | nil => exact absurd h hne'
          | cons d' more => rfl
        simp only [htake, hdrop, Numeral.exponentChars, List.append_nil, List.map_take,
          List.map_drop]

theorem magnitude_positionalNumeral (n : Int) :
    (positionalNumeral negative ds n).magnitude = ofDigits ds * (10 : ℚ) ^ (n - ds.length) := by
  cases n with
  | negSucc n =>
    have hscale : (0 : Int) - (List.replicate (n + 1) (0 : Digit) ++ ds).length =
        .negSucc n - ds.length := by
      simp only [List.length_append, List.length_replicate]
      omega
    simp only [positionalNumeral, Digit.zero_eq, Numeral.magnitude, Numeral.coefficient,
      Numeral.scale, hscale, ofDigits_append, ofDigits_replicate_zero, Nat.zero_mul, Nat.zero_add]
  | ofNat n =>
    simp only [positionalNumeral]
    split
    · next hn =>
      subst hn
      simp only [Numeral.magnitude, Numeral.coefficient, Numeral.scale, Nat.zero_mul, Nat.zero_add]
      rfl
    · split
      · next hlen =>
        have hpow : (10 : ℚ) ^ ((n : Int) - ds.length) = 10 ^ (n - ds.length) := by
          rw [← Int.ofNat_sub hlen, zpow_natCast]
        have hscale : (10 : ℚ) ^ ((0 : Int) - (1 : Nat)) = 10⁻¹ := by norm_num
        simp only [Numeral.magnitude, Numeral.coefficient, Numeral.scale, List.length_singleton,
          Int.ofNat_eq_natCast, hpow, hscale]
        simp [ofDigits]
      · next hlen =>
        have hcoefficient : ofDigits (ds.take n) * 10 ^ (ds.drop n).length + ofDigits (ds.drop n) =
            ofDigits ds := by
          rw [← ofDigits_append, List.take_append_drop]
        have hscale : (0 : Int) - (ds.drop n).length = n - ds.length := by
          rw [List.length_drop]
          omega
        simp only [Numeral.magnitude, Numeral.coefficient, Numeral.scale, hscale, Nat.pow_eq,
          hcoefficient]
        rfl

theorem chars_scientificNumeral (hne : ds ≠ []) (hhead : ds.head? ≠ some 0) (e : Int) :
    (scientificNumeral negative ds e).chars =
      (if negative then ['-'] else []) ++ scientific ds e := by
  obtain ⟨d, ds', rfl⟩ := List.exists_cons_of_ne_nil hne
  have hfirst : natChars (ofDigits [d]) = [d.toChar] :=
    natChars_ofDigits (by simp) (by simpa using hhead)
  have hexponent : (if e < 0 then '-' else '+') :: natChars e.natAbs =
      match e with
      | .ofNat n => '+' :: natChars n
      | .negSucc n => '-' :: natChars (n + 1) := by
    cases e with
    | ofNat n => rfl
    | negSucc n => rw [if_pos (Int.negSucc_lt_zero n)]; rfl
  rw [Numeral.chars_eq]
  cases ds' with
  | nil =>
    simp only [scientificNumeral, List.take, List.drop, hfirst, Numeral.fractionChars,
      Numeral.exponentChars, Exponent.chars_signed, hexponent]
    rfl
  | cons d' ds' =>
    simp only [scientificNumeral, List.take, List.drop, hfirst, Numeral.fractionChars,
      Numeral.exponentChars, Exponent.chars_signed, hexponent]
    rfl

theorem magnitude_scientificNumeral (hne : ds ≠ []) (e : Int) :
    (scientificNumeral negative ds e).magnitude =
      ofDigits ds * (10 : ℚ) ^ (e + 1 - ds.length) := by
  have hlen : 0 < ds.length := List.length_pos_of_ne_nil hne
  have hcoefficient : ofDigits (ds.take 1) * 10 ^ (ds.drop 1).length + ofDigits (ds.drop 1) =
      ofDigits ds := by
    rw [← ofDigits_append, List.take_append_drop]
  have hscale : e - (ds.drop 1).length = e + 1 - ds.length := by
    rw [List.length_drop]
    omega
  simp only [scientificNumeral, Numeral.magnitude, Numeral.coefficient, Numeral.scale,
    Exponent.value_signed, hscale, Nat.pow_eq, hcoefficient]

/-- Both notations tell a double from an integer. -/
theorem isIntegral_positionalNumeral (hne : ds ≠ []) (n : Int) :
    (positionalNumeral negative ds n).isIntegral = false := by
  cases n with
  | negSucc n => simp [positionalNumeral, Numeral.isIntegral]
  | ofNat n =>
    simp only [positionalNumeral]
    split
    · simp [Numeral.isIntegral, hne]
    · split
      · rfl
      · next hlen =>
        have hdrop : ds.drop n ≠ [] := by simpa using hlen
        simp [Numeral.isIntegral, hdrop]

theorem isIntegral_scientificNumeral (e : Int) :
    (scientificNumeral negative ds e).isIntegral = false := by
  simp [scientificNumeral, Numeral.isIntegral]

@[simp] theorem negative_positionalNumeral (n : Int) :
    (positionalNumeral negative ds n).negative = negative := by
  cases n with
  | negSucc n => rfl
  | ofNat n =>
    simp only [positionalNumeral]
    split
    · rfl
    · split <;> rfl

end Notations

/-! ## The numeral of a double -/

/-- The numeral that is written for a double. -/
def numeral (x : Binary64) : Numeral :=
  if x.isZero then ⟨x.negative, 0, [.zero], none⟩
  else
    let s := x.shortest
    let e := s.digits.length + s.scale - 1
    if layout.least ≤ e ∧ e ≤ layout.greatest then positionalNumeral x.negative s.digits (e + 1)
    else scientificNumeral x.negative s.digits e

theorem value_shortest_pos {x : Binary64} (h : x.isZero = false) : 0 < x.shortest.value := by
  have hpos : 0 < x.ordinal.val := Nat.pos_of_ne_zero (by simpa [isZero] using h)
  have hmem := Interval.pos_of_mem hpos (mem_shortest h)
  exact pos_of_mul_pos_left hmem (by positivity)

theorem exists_digits_shortest (x : Binary64) : ∃ d, x.shortest.digits = digits d := ⟨_, rfl⟩

theorem digits_shortest_ne_nil (x : Binary64) : x.shortest.digits ≠ [] := digits_ne_nil _

theorem head?_digits_shortest {x : Binary64} (h : x.isZero = false) :
    x.shortest.digits.head? ≠ some 0 := by
  have hvalue := value_shortest_pos h
  obtain ⟨d, hd⟩ := exists_digits_shortest x
  rw [Shortest.value, hd, ofDigits_digits] at hvalue
  rw [hd]
  refine head?_digits (Nat.pos_of_ne_zero fun hzero => ?_)
  simp [hzero] at hvalue

theorem chars_numeral (x : Binary64) : x.numeral.chars = x.chars := by
  unfold numeral chars
  cases hx : x.isZero with
  | true =>
    simp only [if_true, Numeral.chars_eq, natChars_zero]
    rfl
  | false =>
    have hne := digits_shortest_ne_nil x
    have hhead := head?_digits_shortest hx
    simp only [Bool.false_eq_true, if_false, Layout.chars]
    split
    · exact chars_positionalNumeral _ hne hhead _
    · exact chars_scientificNumeral _ hne hhead _

theorem isIntegral_numeral (x : Binary64) : x.numeral.isIntegral = false := by
  unfold numeral
  split
  · rfl
  · simp only
    split
    · exact isIntegral_positionalNumeral _ (digits_shortest_ne_nil x) _
    · exact isIntegral_scientificNumeral _ _

@[simp] theorem negative_numeral (x : Binary64) : x.numeral.negative = x.negative := by
  unfold numeral
  split
  · rfl
  · simp only
    split
    · exact negative_positionalNumeral _ _
    · rfl

theorem magnitude_numeral_of_isZero {x : Binary64} (h : x.isZero = true) :
    x.numeral.magnitude = 0 := by
  simp [numeral, h, Numeral.magnitude, Numeral.coefficient, ofDigits]

theorem magnitude_numeral {x : Binary64} (h : x.isZero = false) :
    x.numeral.magnitude = x.shortest.value := by
  simp only [numeral, h, Bool.false_eq_true, if_false, Shortest.value]
  have hscale : ((x.shortest.digits.length : Int) + x.shortest.scale - 1) + 1 -
      x.shortest.digits.length = x.shortest.scale := by omega
  split
  · rw [magnitude_positionalNumeral, hscale]
  · rw [magnitude_scientificNumeral _ (digits_shortest_ne_nil x), hscale]

/-- A double is determined by its text. -/
theorem chars_injective {x y : Binary64} (h : x.chars = y.chars) : x = y := by
  have hnumeral : x.numeral = y.numeral :=
    Numeral.chars_injective (by rw [chars_numeral, chars_numeral, h])
  have hnegative : x.negative = y.negative := by
    rw [← negative_numeral x, hnumeral, negative_numeral]
  have hmagnitude := congrArg Numeral.magnitude hnumeral
  have hordinal : x.ordinal.val = y.ordinal.val := by
    cases hx : x.isZero <;> cases hy : y.isZero
    · rw [magnitude_numeral hx, magnitude_numeral hy] at hmagnitude
      exact Interval.ordinal_unique (mem_shortest hx) (hmagnitude ▸ mem_shortest hy)
    · rw [magnitude_numeral hx, magnitude_numeral_of_isZero hy] at hmagnitude
      exact absurd hmagnitude (value_shortest_pos hx).ne'
    · rw [magnitude_numeral hy, magnitude_numeral_of_isZero hx] at hmagnitude
      exact absurd hmagnitude (value_shortest_pos hy).ne
    · simp only [isZero, decide_eq_true_eq] at hx hy
      rw [hx, hy]
  cases x
  cases y
  simp only at hnegative hordinal
  rw [hnegative, Fin.ext hordinal]

end Binary64

end SdlSchema
