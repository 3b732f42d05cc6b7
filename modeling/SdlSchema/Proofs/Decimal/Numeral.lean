import SdlSchema.Decimal.Numeral
import SdlSchema.Proofs.Decimal.Digits

/-!
# Reading a numeral undoes writing it

Each part of a numeral is read back from its text, provided that what follows
cannot go on with a numeral (`Ends`).  So a numeral is determined by its text
(`chars_injective`).
-/

namespace SdlSchema.Decimal

/-- A numeral cannot go on with the text. -/
def Ends (rest : List Char) : Prop :=
  ∀ c ∈ rest.head?, Digit.isDigit c = false ∧ c ≠ '.' ∧ c ≠ 'e' ∧ c ≠ 'E'

theorem ends_nil : Ends [] := nofun

theorem Ends.noDigit {rest : List Char} (h : Ends rest) : NoDigit rest := fun c hc => (h c hc).1

theorem noDigit_cons {c : Char} (h : Digit.isDigit c = false) (rest : List Char) :
    NoDigit (c :: rest) := by
  intro c' hc'
  cases hc'
  exact h

theorem run_accept_of_ne {c : Char} {rest : List Char} (h : ∀ c' ∈ rest.head?, c' ≠ c) :
    (Reader.accept c).run rest = some (false, rest) := by
  cases rest with
  | nil => rfl
  | cons c' rest => simp [Reader.accept, Reader.acceptIf, h c' rfl]

theorem run_accept (c : Char) (rest : List Char) :
    (Reader.accept c).run (c :: rest) = some (true, rest) := by
  simp [Reader.accept, Reader.acceptIf]

/-! ## The parts of a numeral -/

namespace Numeral

def fractionChars : List Digit → List Char
  | [] => []
  | ds => '.' :: ds.map Digit.toChar

def exponentChars : Option Exponent → List Char
  | none => []
  | some e => e.chars

theorem chars_eq (n : Numeral) :
    n.chars = (if n.negative then ['-'] else []) ++
      (natChars n.whole ++ (fractionChars n.fraction ++ exponentChars n.exponent)) := by
  rw [chars, List.append_assoc, List.append_assoc]
  rfl

theorem run_readWhole {d : Digit} {ds : List Digit} {n : Nat} (hn : digits n = d :: ds)
    {rest : List Char} (h : NoDigit rest) :
    (readWhole d).run (ds.map Digit.toChar ++ rest) = some (n, rest) := by
  have hof : ofDigits (d :: ds) = n := by rw [← hn, ofDigits_digits]
  unfold readWhole
  by_cases hd : d = 0
  · have hzero : n = 0 := by
      by_contra hne
      exact head?_digits (Nat.pos_of_ne_zero hne) (by rw [hn, hd]; rfl)
    subst hzero
    have hds : ds = [] := by
      rw [digits_of_lt (by decide)] at hn
      exact (List.cons.inj hn).2.symm
    subst hds
    simp [hd]
  · simp only [hd, if_false, Reader.run_bind, run_readDigits ds h, Reader.run_pure, hof]

theorem run_readFraction (ds : List Digit) {rest : List Char} (hdigit : NoDigit rest)
    (hpoint : ∀ c ∈ rest.head?, c ≠ '.') :
    readFraction.run (fractionChars ds ++ rest) = some (ds, rest) := by
  cases ds with
  | nil => simp [readFraction, fractionChars, run_accept_of_ne hpoint]
  | cons d ds =>
    have hrest := run_readDigits₁ d ds hdigit
    simp [readFraction, fractionChars, run_accept, hrest]

theorem run_readSign (s : ExponentSign) (d : Digit) (rest : List Char) :
    readSign.run (s.chars ++ d.toChar :: rest) = some (s, d.toChar :: rest) := by
  have hplus : ∀ c ∈ (d.toChar :: rest).head?, c ≠ '+' := by
    intro c hc
    cases hc
    exact Digit.toChar_ne (by decide) d
  have hminus : ∀ c ∈ (d.toChar :: rest).head?, c ≠ '-' := by
    intro c hc
    cases hc
    exact Digit.toChar_ne (by decide) d
  cases s with
  | bare => simp [readSign, ExponentSign.chars, run_accept_of_ne hplus, run_accept_of_ne hminus]
  | plus => simp [readSign, ExponentSign.chars, run_accept]
  | minus =>
    have hne : ∀ c ∈ ('-' :: d.toChar :: rest).head?, c ≠ '+' := by
      intro c hc
      cases hc
      decide
    simp [readSign, ExponentSign.chars, run_accept_of_ne hne, run_accept]

theorem run_readExponent (e : Option Exponent) {rest : List Char} (h : Ends rest) :
    readExponent.run (exponentChars e ++ rest) = some (e, rest) := by
  cases e with
  | none =>
    have hupper : ∀ c ∈ rest.head?, c ≠ 'E' := fun c hc => (h c hc).2.2.2
    have hlower : ∀ c ∈ rest.head?, c ≠ 'e' := fun c hc => (h c hc).2.2.1
    simp [readExponent, exponentChars, run_accept_of_ne hupper, run_accept_of_ne hlower]
  | some e =>
    obtain ⟨upper, sign, first, more⟩ := e
    have hsign := run_readSign sign first (more.map Digit.toChar ++ rest)
    have hdigits := run_readDigits₁ first more h.noDigit
    cases upper with
    | true =>
      simp [readExponent, exponentChars, Exponent.chars, run_accept, hsign, hdigits]
    | false =>
      have hne : ∀ tail : List Char, ∀ c ∈ ('e' :: tail).head?, c ≠ 'E' := by
        intro tail c hc
        cases hc
        decide
      simp [readExponent, exponentChars, Exponent.chars, run_accept, run_accept_of_ne (hne _),
        hsign, hdigits]

/-! ## Whole numerals -/

/-- What stands after the fraction starts neither with a digit nor with a point. -/
theorem head_exponentChars (e : Option Exponent) {rest : List Char} (h : Ends rest) :
    ∀ c ∈ (exponentChars e ++ rest).head?, Digit.isDigit c = false ∧ c ≠ '.' := by
  intro c hc
  cases e with
  | none => exact ⟨(h c hc).1, (h c hc).2.1⟩
  | some e =>
    obtain ⟨upper, sign, first, more⟩ := e
    cases upper with
    | true =>
      cases hc
      exact (by decide : Digit.isDigit 'E' = false ∧ 'E' ≠ '.')
    | false =>
      cases hc
      exact (by decide : Digit.isDigit 'e' = false ∧ 'e' ≠ '.')

theorem noDigit_fractionChars (ds : List Digit) {rest : List Char} (h : NoDigit rest) :
    NoDigit (fractionChars ds ++ rest) := by
  cases ds with
  | nil => exact h
  | cons d ds => exact noDigit_cons (by decide) _

theorem run_readAfter (negative : Bool) {d : Digit} {ds : List Digit} {whole : Nat}
    (hwhole : digits whole = d :: ds) (fraction : List Digit) (exponent : Option Exponent)
    {rest : List Char} (h : Ends rest) :
    (do
      let whole ← readWhole d
      let fraction ← readFraction
      let exponent ← readExponent
      pure (Numeral.mk negative whole fraction exponent)).run
        (ds.map Digit.toChar ++ (fractionChars fraction ++ (exponentChars exponent ++ rest))) =
      some (⟨negative, whole, fraction, exponent⟩, rest) := by
  have hhead := head_exponentChars exponent h
  have hdigit : NoDigit (exponentChars exponent ++ rest) := fun c hc => (hhead c hc).1
  have hpoint : ∀ c ∈ (exponentChars exponent ++ rest).head?, c ≠ '.' :=
    fun c hc => (hhead c hc).2
  simp only [Reader.run_bind, run_readWhole hwhole (noDigit_fractionChars fraction hdigit),
    run_readFraction fraction hdigit hpoint, run_readExponent exponent h, Reader.run_pure]

/-- A numeral is read back from the front of any text that does not continue it. -/
theorem run_read (n : Numeral) {rest : List Char} (h : Ends rest) :
    read.run (n.chars ++ rest) = some (n, rest) := by
  obtain ⟨negative, whole, fraction, exponent⟩ := n
  obtain ⟨d, ds, hwhole⟩ := List.exists_cons_of_ne_nil (digits_ne_nil whole)
  have hafter := run_readAfter negative hwhole fraction exponent h
  rw [chars_eq]
  cases negative with
  | true =>
    simpa [read, readAfter, Reader.next, natChars, hwhole, Digit.ofChar?_toChar,
      Reader.ofOption] using hafter
  | false =>
    have hne : d.toChar ≠ '-' := Digit.toChar_ne (by decide) d
    simpa [read, readAfter, Reader.next, natChars, hwhole, Digit.ofChar?_toChar,
      Reader.ofOption, hne] using hafter

theorem ofChars?_chars (n : Numeral) : ofChars? n.chars = some n := by
  have hrun := run_read n ends_nil
  rw [List.append_nil] at hrun
  simp only [ofChars?, Reader.readAll?, hrun]

theorem chars_injective {m n : Numeral} (h : m.chars = n.chars) : m = n := by
  have hm := ofChars?_chars m
  rw [h, ofChars?_chars] at hm
  exact (Option.some.inj hm).symm

end Numeral

end SdlSchema.Decimal
