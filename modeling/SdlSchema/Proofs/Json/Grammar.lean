import SdlSchema.Proofs.Json.Number
import SdlSchema.Proofs.Json.Strings

/-!
# Written values are well-formed texts

The grammar of JSON as relations between a text and what is left of it: `Value
s r` says that `s` is a value with `r` behind it.  An object is only a value
when its keys, read through their escapes, are pairwise distinct.

Whatever the style and the depth, the text of a value without a repeated key
keeps to this grammar (`value_write`).
-/

namespace SdlSchema.Json

open Decimal

/-! ## The grammar -/

namespace Grammar

inductive Blanks : List Char → List Char → Prop
  | nil {r : List Char} : Blanks r r
  | cons {c : Char} {s r : List Char} : c ∈ [' ', '\t', '\n', '\r'] → Blanks s r → Blanks (c :: s) r

inductive Digits : List Char → List Char → Prop
  | last {c : Char} {r : List Char} : Digit.isDigit c = true → Digits (c :: r) r
  | cons {c : Char} {s r : List Char} : Digit.isDigit c = true → Digits s r → Digits (c :: s) r

inductive Whole : List Char → List Char → Prop
  | zero {r : List Char} : Whole ('0' :: r) r
  | positive {c : Char} {s r : List Char} : c ≠ '0' → Digits (c :: s) r → Whole (c :: s) r

inductive Fraction : List Char → List Char → Prop
  | none {r : List Char} : Fraction r r
  | some {s r : List Char} : Digits s r → Fraction ('.' :: s) r

inductive Sign : List Char → List Char → Prop
  | none {r : List Char} : Sign r r
  | plus {r : List Char} : Sign ('+' :: r) r
  | minus {r : List Char} : Sign ('-' :: r) r

inductive Exponent : List Char → List Char → Prop
  | none {r : List Char} : Exponent r r
  | some {c : Char} {s t r : List Char} : c ∈ ['e', 'E'] → Sign s t → Digits t r →
      Exponent (c :: s) r

inductive Number : List Char → List Char → Prop
  | positive {s t u r : List Char} : Whole s t → Fraction t u → Exponent u r → Number s r
  | negative {s t u r : List Char} : Whole s t → Fraction t u → Exponent u r → Number ('-' :: s) r

/-- Four hexadecimal digits and the number they stand for. -/
inductive Unit : List Char → Nat → List Char → Prop
  | mk {a b c d : Char} {w x y z : Nat} {r : List Char} :
      Escape.hexValue? a = some w → Escape.hexValue? b = some x →
      Escape.hexValue? c = some y → Escape.hexValue? d = some z →
      Unit (a :: b :: c :: d :: r) (((w * 16 + x) * 16 + y) * 16 + z) r

/-- The rest of a string after its opening quote, and the characters it stands for. -/
inductive Characters : List Char → List Char → List Char → Prop
  | close {r : List Char} : Characters ('"' :: r) [] r
  | plain {c : Char} {s cs r : List Char} : 0x20 ≤ c.toNat → c ≠ '"' → c ≠ '\\' →
      Characters s cs r → Characters (c :: s) (c :: cs) r
  | letter {l c : Char} {s cs r : List Char} : Escape.ofLetter? l = some c →
      Characters s cs r → Characters ('\\' :: l :: s) (c :: cs) r
  | unit {c : Char} {n : Nat} {s t cs r : List Char} : Unit s n t → Escape.charOf? n = some c →
      Characters t cs r → Characters ('\\' :: 'u' :: s) (c :: cs) r
  | pair {c : Char} {high low : Nat} {s t u cs r : List Char} :
      Unit s high ('\\' :: 'u' :: t) → Escape.isHighSurrogate high = true →
      Unit t low u → Escape.isLowSurrogate low = true →
      Escape.charOf? (Escape.ofSurrogates high low) = some c →
      Characters u cs r → Characters ('\\' :: 'u' :: s) (c :: cs) r

mutual

inductive Value : List Char → List Char → Prop
  | null {r : List Char} : Value ('n' :: 'u' :: 'l' :: 'l' :: r) r
  | true {r : List Char} : Value ('t' :: 'r' :: 'u' :: 'e' :: r) r
  | false {r : List Char} : Value ('f' :: 'a' :: 'l' :: 's' :: 'e' :: r) r
  | number {s r : List Char} : Number s r → Value s r
  | string {s cs r : List Char} : Characters s cs r → Value ('"' :: s) r
  | emptyArray {s r : List Char} : Blanks s (']' :: r) → Value ('[' :: s) r
  | array {s r : List Char} : Elements s (']' :: r) → Value ('[' :: s) r
  | emptyObject {s r : List Char} : Blanks s ('}' :: r) → Value ('{' :: s) r
  | object {keys : List String} {s r : List Char} : Members keys s ('}' :: r) → keys.Nodup →
      Value ('{' :: s) r

/-- A value between blanks. -/
inductive Element : List Char → List Char → Prop
  | mk {s t u r : List Char} : Blanks s t → Value t u → Blanks u r → Element s r

inductive Elements : List Char → List Char → Prop
  | last {s r : List Char} : Element s r → Elements s r
  | cons {s t r : List Char} : Element s (',' :: t) → Elements t r → Elements s r

inductive Member : String → List Char → List Char → Prop
  | mk {key : String} {s t u v r : List Char} : Blanks s ('"' :: t) →
      Characters t key.toList u → Blanks u (':' :: v) → Element v r → Member key s r

inductive Members : List String → List Char → List Char → Prop
  | last {key : String} {s r : List Char} : Member key s r → Members [key] s r
  | cons {key : String} {keys : List String} {s t r : List Char} : Member key s (',' :: t) →
      Members keys t r → Members (key :: keys) s r

end

end Grammar

/-- The text is one value in which no object repeats a key, perhaps between blanks. -/
def WellFormed (text : String) : Prop := Grammar.Element text.toList []

/-! ## Numbers -/

namespace Grammar

theorem digits_map (d : Digit) (ds : List Digit) (rest : List Char) :
    Digits (d.toChar :: (ds.map Digit.toChar ++ rest)) rest := by
  induction ds generalizing d with
  | nil => exact Digits.last d.isDigit_toChar
  | cons d' ds ih => exact Digits.cons d.isDigit_toChar (ih d')

theorem whole_natChars (n : Nat) (rest : List Char) : Whole (natChars n ++ rest) rest := by
  obtain ⟨d, ds, hdigits⟩ := List.exists_cons_of_ne_nil (digits_ne_nil n)
  by_cases hzero : n = 0
  · subst hzero
    rw [natChars, digits_of_lt (by decide)]
    exact Whole.zero
  · have hne : d.toChar ≠ '0' := by
      intro h
      have hd : d = 0 := Digit.toChar_injective h
      exact head?_digits (Nat.pos_of_ne_zero hzero) (by rw [hdigits, hd]; rfl)
    rw [natChars, hdigits]
    exact Whole.positive hne (digits_map d ds rest)

theorem fraction_chars (ds : List Digit) (rest : List Char) :
    Fraction (Numeral.fractionChars ds ++ rest) rest := by
  cases ds with
  | nil => exact Fraction.none
  | cons d ds => exact Fraction.some (digits_map d ds rest)

theorem exponent_chars (e : Option Decimal.Exponent) (rest : List Char) :
    Exponent (Numeral.exponentChars e ++ rest) rest := by
  cases e with
  | none => exact Exponent.none
  | some e =>
    obtain ⟨upper, sign, first, more⟩ := e
    have hmark : (if upper then 'E' else 'e') ∈ ['e', 'E'] := by cases upper <;> decide
    have hdigits := digits_map first more rest
    cases sign with
    | bare => exact Exponent.some hmark Sign.none hdigits
    | plus => exact Exponent.some hmark Sign.plus hdigits
    | minus => exact Exponent.some hmark Sign.minus hdigits

theorem number_numeral (n : Numeral) (rest : List Char) : Number (n.chars ++ rest) rest := by
  have hwhole := whole_natChars n.whole
  have hfraction := fraction_chars n.fraction
  have hexponent := exponent_chars n.exponent rest
  rw [Numeral.chars_eq]
  simp only [List.append_assoc]
  cases n.negative with
  | true => exact Number.negative (hwhole _) (hfraction _) hexponent
  | false => exact Number.positive (hwhole _) (hfraction _) hexponent

theorem number_chars (n : SdlSchema.Number) (rest : List Char) : Number (n.chars ++ rest) rest := by
  rw [← Number.chars_numeral]
  exact number_numeral n.numeral rest

/-! ### Numerals

Every number of the grammar is the text of a numeral. -/

section Numerals

variable {s r : List Char}

theorem exists_digits (h : Digits s r) :
    ∃ (d : Digit) (ds : List Digit), s = d.toChar :: (ds.map Digit.toChar ++ r) := by
  induction h with
  | last hc =>
    obtain ⟨d, rfl⟩ := Digit.exists_toChar hc
    exact ⟨d, [], rfl⟩
  | cons hc _ ih =>
    obtain ⟨d, rfl⟩ := Digit.exists_toChar hc
    obtain ⟨d', ds, rfl⟩ := ih
    exact ⟨d, d' :: ds, rfl⟩

theorem exists_natChars (h : Whole s r) : ∃ n, s = natChars n ++ r := by
  cases h with
  | zero => exact ⟨0, by rw [natChars, digits_of_lt (by decide)]; rfl⟩
  | positive hne hdigits =>
    obtain ⟨d, ds, hs⟩ := exists_digits hdigits
    obtain ⟨rfl, rfl⟩ := List.cons.inj hs
    have hhead : (d :: ds).head? ≠ some 0 := by
      intro h
      exact hne (Option.some.inj h ▸ rfl)
    refine ⟨ofDigits (d :: ds), ?_⟩
    rw [natChars, digits_ofDigits (by simp) hhead]
    rfl

theorem exists_fractionChars (h : Fraction s r) : ∃ ds, s = Numeral.fractionChars ds ++ r := by
  cases h with
  | none => exact ⟨[], rfl⟩
  | some hdigits =>
    obtain ⟨d, ds, rfl⟩ := exists_digits hdigits
    exact ⟨d :: ds, rfl⟩

theorem exists_signChars (h : Sign s r) : ∃ sign : ExponentSign, s = sign.chars ++ r := by
  cases h with
  | none => exact ⟨.bare, rfl⟩
  | plus => exact ⟨.plus, rfl⟩
  | minus => exact ⟨.minus, rfl⟩

theorem exists_exponentChars (h : Exponent s r) : ∃ e, s = Numeral.exponentChars e ++ r := by
  cases h with
  | none => exact ⟨none, rfl⟩
  | @some c s t r hmark hsign hdigits =>
    obtain ⟨sign, rfl⟩ := exists_signChars hsign
    obtain ⟨d, ds, rfl⟩ := exists_digits hdigits
    have hupper : c = if c = 'E' then 'E' else 'e' := by
      rcases List.mem_pair.1 hmark with rfl | rfl <;> rfl
    refine ⟨some ⟨c = 'E', sign, d, ds⟩, ?_⟩
    rw [hupper]
    simp [Numeral.exponentChars, Decimal.Exponent.chars]

theorem exists_numeral (h : Number s r) : ∃ n : Numeral, s = n.chars ++ r := by
  cases h with
  | positive hwhole hfraction hexponent =>
    obtain ⟨whole, rfl⟩ := exists_natChars hwhole
    obtain ⟨fraction, rfl⟩ := exists_fractionChars hfraction
    obtain ⟨exponent, rfl⟩ := exists_exponentChars hexponent
    exact ⟨⟨false, whole, fraction, exponent⟩, by simp [Numeral.chars_eq]⟩
  | negative hwhole hfraction hexponent =>
    obtain ⟨whole, rfl⟩ := exists_natChars hwhole
    obtain ⟨fraction, rfl⟩ := exists_fractionChars hfraction
    obtain ⟨exponent, rfl⟩ := exists_exponentChars hexponent
    exact ⟨⟨true, whole, fraction, exponent⟩, by simp [Numeral.chars_eq]⟩

end Numerals

/-! ## Strings -/

theorem unit_control {c : Char} (h : c.toNat < 0x20) (rest : List Char) :
    Unit ('0' :: '0' :: Escape.hexDigit (c.toNat / 16) :: Escape.hexDigit (c.toNat % 16) :: rest)
      c.toNat rest := by
  have hzero : Escape.hexValue? '0' = some 0 := rfl
  obtain ⟨hhigh, hlow⟩ := Escape.hexValue?_control h
  have hsum : ((0 * 16 + 0) * 16 + c.toNat / 16) * 16 + c.toNat % 16 = c.toNat := by omega
  have hunit := Unit.mk (r := rest) hzero hzero hhigh hlow
  rwa [hsum] at hunit

theorem characters_escape {c : Char} {s cs rest : List Char} (h : Characters s cs rest) :
    Characters (escape c ++ s) (c :: cs) rest := by
  by_cases hquote : c = '"'
  · subst hquote
    exact Characters.letter rfl h
  unfold escape
  split
  case h_8 hbackslash _ _ _ _ _ =>
    split
    · next hcontrol =>
      exact Characters.unit (unit_control hcontrol s) (Escape.charOf?_control hcontrol) h
    · next hcontrol => exact Characters.plain (by omega) hquote hbackslash h
  all_goals exact Characters.letter rfl h

theorem characters_escapeAll (cs rest : List Char) :
    Characters (escapeAll cs ('"' :: rest)) cs rest := by
  induction cs with
  | nil => exact Characters.close
  | cons c cs ih => exact characters_escape ih

end Grammar

/-! ## Values without repeated keys -/

mutual

/-- No object repeats a key, at any depth. -/
def Distinct : Json → Prop
  | array elements => DistinctElements elements
  | object members => (members.map Prod.fst).Nodup ∧ DistinctMembers members
  | _ => True

def DistinctElements : List Json → Prop
  | [] => True
  | e :: es => Distinct e ∧ DistinctElements es

def DistinctMembers : List (String × Json) → Prop
  | [] => True
  | (_, v) :: ms => Distinct v ∧ DistinctMembers ms

end

@[simp] theorem distinct_bool (b : Bool) : (bool b).Distinct := trivial

@[simp] theorem distinct_string (s : String) : (string s).Distinct := trivial

theorem distinctElements_iff {es : List Json} :
    DistinctElements es ↔ ∀ e ∈ es, e.Distinct := by
  induction es with
  | nil => simp [DistinctElements]
  | cons e es ih => simp [DistinctElements, ih]

theorem distinctMembers_iff {ms : List (String × Json)} :
    DistinctMembers ms ↔ ∀ m ∈ ms, m.2.Distinct := by
  induction ms with
  | nil => simp [DistinctMembers]
  | cons m ms ih => simp [DistinctMembers, ih]

theorem distinct_array {es : List Json} : (array es).Distinct ↔ ∀ e ∈ es, e.Distinct := by
  rw [Distinct, distinctElements_iff]

theorem distinct_object {ms : List (String × Json)} :
    (object ms).Distinct ↔ (ms.map Prod.fst).Nodup ∧ ∀ m ∈ ms, m.2.Distinct := by
  rw [Distinct, distinctMembers_iff]

mutual

/-- Sorted keys are pairwise distinct. -/
theorem Canonical.distinct : (j : Json) → j.Canonical → j.Distinct
  | null, _ | bool _, _ | number _, _ | string _, _ => trivial
  | array es, h => CanonicalElements.distinct es h
  | object ms, h =>
    have hkeys : (ms.map Prod.fst).Nodup := by
      refine h.1.imp ?_
      rintro k _ hlt rfl
      exact String.lt_irrefl k hlt
    ⟨hkeys, CanonicalMembers.distinct ms h.2⟩

theorem CanonicalElements.distinct : (es : List Json) → CanonicalElements es → DistinctElements es
  | [], _ => trivial
  | e :: es, h => ⟨Canonical.distinct e h.1, CanonicalElements.distinct es h.2⟩

theorem CanonicalMembers.distinct :
    (ms : List (String × Json)) → CanonicalMembers ms → DistinctMembers ms
  | [], _ => trivial
  | (_, v) :: ms, h => ⟨Canonical.distinct v h.1, CanonicalMembers.distinct ms h.2⟩

end

/-! ## Values -/

namespace Grammar

variable {style : Style}

theorem blanks_newline (style : Style) (depth : Nat) (rest : List Char) :
    Blanks (style.newline depth rest) rest := by
  cases style with
  | compact => exact Blanks.nil
  | pretty =>
    refine Blanks.cons (by decide) ?_
    induction 2 * depth with
    | zero => exact Blanks.nil
    | succ n ih => exact Blanks.cons (by decide) ih

theorem member_colon {key : String} {depth : Nat} {s r t : List Char} (hvalue : Value s r)
    (hblanks : Blanks r t) :
    Member key (style.newline depth (writeString key (style.colon s))) t := by
  have hkey := characters_escapeAll key.toList (style.colon s)
  have hnewline := blanks_newline style depth (writeString key (style.colon s))
  cases style with
  | compact => exact Member.mk hnewline hkey Blanks.nil (Element.mk Blanks.nil hvalue hblanks)
  | pretty =>
    have hspace : Blanks (' ' :: s) s := Blanks.cons (by decide) Blanks.nil
    exact Member.mk hnewline hkey Blanks.nil (Element.mk hspace hvalue hblanks)

mutual

theorem value_write (depth : Nat) (j : Json) (h : j.Distinct) (rest : List Char) :
    Value (write style depth j rest) rest := by
  match j, h with
  | .null, _ => exact Value.null
  | .bool Bool.true, _ => exact Value.true
  | .bool Bool.false, _ => exact Value.false
  | .number n, _ => exact Value.number (number_chars n rest)
  | .string s, _ => exact Value.string (characters_escapeAll s.toList rest)
  | .array [], _ => exact Value.emptyArray Blanks.nil
  | .array (e :: es), h =>
    exact Value.array (elements_write depth es h.2 (value_write (depth + 1) e h.1 _))
  | .object [], _ => exact Value.emptyObject Blanks.nil
  | .object ((key, v) :: ms), h =>
    exact Value.object (members_write depth key ms h.2.2 (value_write (depth + 1) v h.2.1 _)) h.1

/-- The elements of an array, of which the first is given. -/
theorem elements_write (depth : Nat) (es : List Json) (h : DistinctElements es)
    {s rest : List Char}
    (hfirst : Value s (writeElements style depth es (style.newline depth (']' :: rest)))) :
    Elements (style.newline (depth + 1) s) (']' :: rest) := by
  match es, h with
  | [], _ =>
    exact Elements.last
      (Element.mk (blanks_newline style _ s) hfirst (blanks_newline style depth _))
  | e :: es, h =>
    exact Elements.cons (Element.mk (blanks_newline style _ s) hfirst Blanks.nil)
      (elements_write depth es h.2 (value_write (depth + 1) e h.1 _))

/-- The members of an object, of which the first is given. -/
theorem members_write (depth : Nat) (key : String) (ms : List (String × Json))
    (h : DistinctMembers ms) {s rest : List Char}
    (hfirst : Value s (writeMembers style depth ms (style.newline depth ('}' :: rest)))) :
    Members (key :: ms.map Prod.fst)
      (style.newline (depth + 1) (writeString key (style.colon s))) ('}' :: rest) := by
  match ms, h with
  | [], _ => exact Members.last (member_colon hfirst (blanks_newline style depth _))
  | (key', v) :: ms, h =>
    exact Members.cons (member_colon hfirst Blanks.nil)
      (members_write depth key' ms h.2 (value_write (depth + 1) v h.1 _))

end

end Grammar

theorem wellFormed_text (style : Style) {j : Json} (h : j.Distinct) :
    WellFormed (j.text style) := by
  have hvalue : Grammar.Value (write style 0 j []) [] := Grammar.value_write 0 j h []
  rw [WellFormed, text, String.toList_ofList]
  exact Grammar.Element.mk Grammar.Blanks.nil hvalue Grammar.Blanks.nil

end SdlSchema.Json
