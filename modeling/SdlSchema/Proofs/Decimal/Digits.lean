import Mathlib.Algebra.Group.Nat.Defs
import Mathlib.Data.List.Basic
import Mathlib.Data.List.Induction
import SdlSchema.Decimal.Digits

/-!
# Digits and numbers

`digits` and `ofDigits` undo each other: `ofDigits_digits` for every number,
`digits_ofDigits` for every list of digits that does not start with zero.  A
run of digits is read back from its characters (`run_readDigits`), provided
that no further digit follows.
-/

namespace SdlSchema.Decimal

/-! ## Characters -/

namespace Digit

def isDigit (c : Char) : Bool := (ofChar? c).isSome

@[simp] theorem isDigit_toChar (d : Digit) : isDigit (toChar d) = true := by
  rw [isDigit, ofChar?_toChar]
  rfl

theorem zero_lt : 0 < 10 := by decide

def zero : Digit := ⟨0, zero_lt⟩

@[simp] theorem zero_eq : zero = 0 := rfl

@[simp] theorem toChar_zero : toChar 0 = '0' := rfl

theorem toChar_ne {c : Char} (h : isDigit c = false) (d : Digit) : toChar d ≠ c := by
  rintro rfl
  rw [isDigit_toChar] at h
  cases h

theorem toChar_injective {d d' : Digit} (h : toChar d = toChar d') : d = d' := by
  have hd := ofChar?_toChar d
  rw [h, ofChar?_toChar] at hd
  exact (Option.some.inj hd).symm

theorem exists_toChar {c : Char} (h : isDigit c = true) : ∃ d, toChar d = c := by
  unfold isDigit ofChar? at h
  split at h
  · next hc =>
    refine ⟨⟨c.toNat - 48, by omega⟩, ?_⟩
    have hcode : 48 + (c.toNat - 48) = c.toNat := by omega
    rw [toChar, hcode, Char.ofNat_toNat]
  · cases h

theorem filterMap_ofChar?_toChar (ds : List Digit) :
    (ds.map toChar).filterMap ofChar? = ds := by
  rw [List.filterMap_map]
  have hsome : ofChar? ∘ toChar = some := funext ofChar?_toChar
  rw [hsome, List.filterMap_some]

end Digit

/-! ## The number of a list of digits -/

@[simp] theorem ofDigits_nil : ofDigits [] = 0 := rfl

theorem foldl_digits (n : Nat) (ds : List Digit) :
    ds.foldl (fun n d => 10 * n + d.val) n = n * 10 ^ ds.length + ofDigits ds := by
  induction ds generalizing n with
  | nil => simp
  | cons d ds ih =>
    have hcons : ofDigits (d :: ds) = (10 * 0 + d.val) * 10 ^ ds.length + ofDigits ds := ih _
    rw [List.foldl_cons, ih, hcons, List.length_cons, Nat.pow_succ]
    grind

theorem ofDigits_append (ds es : List Digit) :
    ofDigits (ds ++ es) = ofDigits ds * 10 ^ es.length + ofDigits es := by
  rw [ofDigits, List.foldl_append, foldl_digits]
  rfl

theorem ofDigits_concat (ds : List Digit) (d : Digit) :
    ofDigits (ds ++ [d]) = 10 * ofDigits ds + d.val := by
  rw [ofDigits, List.foldl_append]
  rfl

theorem ofDigits_cons (d : Digit) (ds : List Digit) :
    ofDigits (d :: ds) = d.val * 10 ^ ds.length + ofDigits ds := by
  rw [ofDigits, List.foldl_cons, foldl_digits, Nat.mul_zero, Nat.zero_add]

theorem ofDigits_replicate_zero (k : Nat) : ofDigits (List.replicate k 0) = 0 := by
  induction k with
  | zero => rfl
  | succ k ih => simp [List.replicate_succ, ofDigits_cons, ih]

/-! ## The digits of a number -/

theorem digitsOnto_eq (n : Nat) (tail : List Digit) : digitsOnto n tail = digits n ++ tail := by
  induction n using Nat.strongRecOn generalizing tail with
  | ind n ih =>
    rw [digits, digitsOnto.eq_def n tail, digitsOnto.eq_def n []]
    split
    · rfl
    · next h =>
      rw [ih (n / 10) (by omega), ih (n / 10) (by omega), List.append_assoc,
        List.singleton_append]

theorem digits_of_lt {n : Nat} (h : n < 10) : digits n = [⟨n, h⟩] := by
  rw [digits, digitsOnto, dif_pos h]

/-- The last digit is the remainder, the others belong to the quotient. -/
theorem digits_of_le {n : Nat} (h : 10 ≤ n) :
    digits n = digits (n / 10) ++ [⟨n % 10, Nat.mod_lt _ (by decide)⟩] := by
  rw [digits, digitsOnto, dif_neg (by omega), digitsOnto_eq]

theorem digits_ne_nil (n : Nat) : digits n ≠ [] := by
  by_cases h : n < 10
  · simp [digits_of_lt h]
  · simp [digits_of_le (Nat.le_of_not_lt h)]

theorem ofDigits_digits (n : Nat) : ofDigits (digits n) = n := by
  induction n using Nat.strongRecOn with
  | ind n ih =>
    by_cases h : n < 10
    · simp [digits_of_lt h, ofDigits]
    · rw [digits_of_le (by omega), ofDigits_concat, ih (n / 10) (by omega)]
      exact Nat.div_add_mod n 10

/-- Only zero has a leading zero. -/
theorem head?_digits {n : Nat} (h : 0 < n) : (digits n).head? ≠ some 0 := by
  induction n using Nat.strongRecOn with
  | ind n ih =>
    by_cases hn : n < 10
    · rw [digits_of_lt hn, List.head?_cons]
      intro he
      have := congrArg Fin.val (Option.some.inj he)
      simp only [Fin.val_zero] at this
      omega
    · rw [digits_of_le (by omega), List.head?_append_of_ne_nil _ (digits_ne_nil _)]
      exact ih (n / 10) (by omega) (by omega)

theorem ofDigits_pos {ds : List Digit} (hne : ds ≠ []) (hhead : ds.head? ≠ some 0) :
    0 < ofDigits ds := by
  cases ds with
  | nil => exact absurd rfl hne
  | cons d ds =>
    have hd : 0 < d.val := Nat.pos_of_ne_zero fun h => hhead (congrArg some (Fin.ext h))
    rw [ofDigits_cons]
    exact Nat.lt_of_lt_of_le (Nat.mul_pos hd (Nat.pow_pos (by decide))) (Nat.le_add_right _ _)

theorem ofDigits_lt (ds : List Digit) : ofDigits ds < 10 ^ ds.length := by
  induction ds with
  | nil => simp
  | cons d ds ih =>
    have hmul : d.val * 10 ^ ds.length ≤ 9 * 10 ^ ds.length :=
      Nat.mul_le_mul_right _ (Nat.le_of_lt_succ d.isLt)
    rw [ofDigits_cons, List.length_cons, Nat.pow_succ]
    omega

theorem lt_pow_length_digits (n : Nat) : n < 10 ^ (digits n).length := by
  have hlt := ofDigits_lt (digits n)
  rwa [ofDigits_digits] at hlt

theorem pow_length_digits_le {n : Nat} (h : 0 < n) : 10 ^ ((digits n).length - 1) ≤ n := by
  obtain ⟨d, ds, hdigits⟩ := List.exists_cons_of_ne_nil (digits_ne_nil n)
  have hhead := head?_digits h
  have hof := ofDigits_digits n
  rw [hdigits] at hhead hof ⊢
  have hd : 0 < d.val := Nat.pos_of_ne_zero fun hd => hhead (congrArg some (Fin.ext hd))
  rw [ofDigits_cons] at hof
  have hmul : 1 * 10 ^ ds.length ≤ d.val * 10 ^ ds.length := Nat.mul_le_mul_right _ hd
  rw [List.length_cons, Nat.add_sub_cancel]
  omega

/-- Digits without leading zeros are the digits of their number. -/
theorem digits_ofDigits {ds : List Digit} (hne : ds ≠ []) (hhead : ds.head? ≠ some 0) :
    digits (ofDigits ds) = ds := by
  induction ds using List.reverseRecOn with
  | nil => exact absurd rfl hne
  | append_singleton ds d ih =>
    rw [ofDigits_concat]
    by_cases hds : ds = []
    · subst hds
      have hd : 10 * ofDigits [] + d.val < 10 := by simp
      rw [digits_of_lt hd]
      simp [ofDigits]
    · have hhead' : ds.head? ≠ some 0 := by rwa [List.head?_append_of_ne_nil _ hds] at hhead
      have hpos := ofDigits_pos hds hhead'
      have hlt := d.isLt
      have hdiv : (10 * ofDigits ds + d.val) / 10 = ofDigits ds := by omega
      rw [digits_of_le (by omega), hdiv, ih hds hhead']
      congr 2
      exact Fin.ext (by simp only; omega)

/-! ## Reading -/

/-- The text does not go on with a digit. -/
def NoDigit (rest : List Char) : Prop := ∀ c ∈ rest.head?, Digit.isDigit c = false

theorem run_readDigits (ds : List Digit) {rest : List Char} (h : NoDigit rest) :
    readDigits.run (ds.map Digit.toChar ++ rest) = some (ds, rest) := by
  have hall : ∀ c ∈ ds.map Digit.toChar, Digit.isDigit c = true := by
    simp
  have htake : rest.takeWhile Digit.isDigit = [] := by
    cases rest with
    | nil => rfl
    | cons c rest => rw [List.takeWhile_cons, h c rfl]; rfl
  have hdrop : rest.dropWhile Digit.isDigit = rest := by
    cases rest with
    | nil => rfl
    | cons c rest => rw [List.dropWhile_cons, h c rfl]; rfl
  change some ((List.takeWhile Digit.isDigit _).filterMap Digit.ofChar?, _) = _
  rw [List.takeWhile_append_of_pos hall, htake, List.append_nil,
    Digit.filterMap_ofChar?_toChar]
  change some (ds, List.dropWhile Digit.isDigit _) = _
  rw [List.dropWhile_append_of_pos hall, hdrop]

theorem run_readDigits₁ (d : Digit) (ds : List Digit) {rest : List Char} (h : NoDigit rest) :
    readDigits₁.run (d.toChar :: (ds.map Digit.toChar ++ rest)) = some ((d, ds), rest) := by
  have hrest := run_readDigits ds h
  simp only [readDigits₁, Reader.run_bind, Reader.next, Digit.ofChar?_toChar, Reader.ofOption,
    Reader.run_pure, hrest]

end SdlSchema.Decimal
