import SdlSchema.Json.Text
import SdlSchema.Proofs.Binary64.Numeral

/-!
# The text of a number is a numeral

An integer is written without point and exponent, a float never is, so the
numeral that is written for a number determines it (`numeral_injective`).
-/

namespace SdlSchema.Number

open Decimal

/-- The numeral that is written for a number. -/
def numeral : Number → Numeral
  | int n => ⟨n < 0, n.natAbs, [], none⟩
  | float x => x.numeral

theorem chars_numeral (n : Number) : n.numeral.chars = n.chars := by
  cases n with
  | float x => exact x.chars_numeral
  | int n =>
    rw [Numeral.chars_eq]
    cases n with
    | ofNat n => simp [numeral, chars, intChars, Numeral.fractionChars, Numeral.exponentChars]
    | negSucc n =>
      simp [numeral, chars, intChars, Numeral.fractionChars, Numeral.exponentChars,
        Int.negSucc_lt_zero]

theorem isIntegral_numeral (n : Number) :
    n.numeral.isIntegral = true ↔ ∃ k, n = int k := by
  cases n with
  | int n => simp [numeral, Numeral.isIntegral]
  | float x => simp [numeral, x.isIntegral_numeral]

theorem integer_numeral (n : Int) : (int n).numeral.integer = n := by
  by_cases h : n < 0
  · simp only [numeral, Numeral.integer, h, decide_true, if_true]
    omega
  · simp only [numeral, Numeral.integer, h, decide_false, Bool.false_eq_true, if_false]
    omega

theorem numeral_injective {m n : Number} (h : m.numeral = n.numeral) : m = n := by
  cases m with
  | int m =>
    obtain ⟨n, rfl⟩ := (isIntegral_numeral n).1 (h ▸ (isIntegral_numeral (int m)).2 ⟨m, rfl⟩)
    rw [← integer_numeral m, h, integer_numeral]
  | float x =>
    cases n with
    | int n =>
      have hn := (isIntegral_numeral (int n)).2 ⟨n, rfl⟩
      rw [← h] at hn
      exact absurd hn (by simp [numeral, x.isIntegral_numeral])
    | float y =>
      have hchars : x.chars = y.chars := by
        rw [← x.chars_numeral, ← y.chars_numeral]
        exact congrArg Numeral.chars h
      rw [Binary64.chars_injective hchars]

/-- A number in front of a text that does not continue it is determined, and so is the text. -/
theorem chars_append_inj {m n : Number} {r r' : List Char} (hr : Ends r) (hr' : Ends r')
    (h : m.chars ++ r = n.chars ++ r') : m = n ∧ r = r' := by
  have hm := Numeral.run_read m.numeral hr
  rw [chars_numeral, h, ← chars_numeral n, Numeral.run_read n.numeral hr'] at hm
  obtain ⟨hnumeral, hrest⟩ := Prod.mk.inj (Option.some.inj hm)
  exact ⟨(numeral_injective hnumeral).symm, hrest.symm⟩

end SdlSchema.Number
