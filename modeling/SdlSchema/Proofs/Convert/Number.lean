import SdlSchema.Convert.Value
import SdlSchema.Proofs.Binary64.Fewest
import SdlSchema.Proofs.Json.Grammar

/-!
# The value of a number text

A number text becomes an integer if it is written as one and has 64 bits, else
the nearest double, and if there is none it stays a text (`toJson_classified`).
What is written for the number is a number text again; it is read as the same
number and has no more significant digits than are needed for that
(`toJson_stable`).
-/

namespace SdlSchema

namespace CanonicalJson

theorem number_injective {k l : Number} (h : number k = number l) : k = l :=
  Json.number.inj (congrArg json h)

theorem string_ne_number (s : String) (k : Number) : string s ≠ number k := fun h => by
  cases congrArg json h

end CanonicalJson

namespace Decimal.Numeral

variable {n : Numeral}

/-! ## Integers -/

theorem value_of_isIntegral (h : n.isIntegral = true) : (n.integer : ℚ) = n.value := by
  obtain ⟨negative, whole, fraction, exponent⟩ := n
  simp only [isIntegral, Bool.and_eq_true, List.isEmpty_iff, Option.isNone_iff_eq_none] at h
  obtain ⟨rfl, rfl⟩ := h
  cases negative <;> simp [integer, value]

theorem isInt64_iff : n.isInt64 = true ↔
    n.isIntegral = true ∧ -2 ^ 63 ≤ n.value ∧ n.value ≤ 2 ^ 63 - 1 := by
  rw [isInt64, Bool.and_eq_true]
  refine and_congr_right fun h => ?_
  have hbounds : -2 ^ 63 ≤ n.value ∧ n.value ≤ 2 ^ 63 - 1 ↔
      -2 ^ 63 ≤ n.integer ∧ n.integer ≤ 2 ^ 63 - 1 := by
    rw [← value_of_isIntegral h]
    norm_cast
  rw [hbounds, integer, Nat.pow_eq]
  cases n.negative with
  | true => simp
  | false =>
    simp
    omega

theorem toJson_of_isInt64 (h : n.isInt64 = true) : n.toJson = .number (.int n.integer) :=
  if_pos h

theorem toJson_of_not_isInt64 (h : ¬ n.isInt64 = true) :
    n.toJson = match Binary64.ofNumeral? n with
      | some x => .number (.float x)
      | none => .string n.text :=
  if_neg h

theorem exists_int_iff : (∃ k, n.toJson = .number (.int k)) ↔ n.isInt64 = true := by
  constructor
  · rintro ⟨k, hk⟩
    by_contra h
    rw [toJson_of_not_isInt64 h] at hk
    split at hk
    · cases CanonicalJson.number_injective hk
    · exact CanonicalJson.string_ne_number _ _ hk
  · exact fun h => ⟨_, toJson_of_isInt64 h⟩

/-! ## Classification -/

/-- What a number text stands for: `n` is what the text says. -/
structure Classified (t : String) (n : Numeral) : Prop where
  text_eq : n.text = t
  /-- It becomes an integer if it is written as one and fits. -/
  int_iff : (∃ k, n.toJson = .number (.int k)) ↔
    n.isIntegral = true ∧ -2 ^ 63 ≤ n.value ∧ n.value ≤ 2 ^ 63 - 1
  /-- The integer is the number that is written. -/
  int_eq : ∀ k, n.toJson = .number (.int k) → (k : ℚ) = n.value
  /-- Otherwise it becomes the one double that is nearest and has the sign that is written. -/
  float : (¬ ∃ k, n.toJson = .number (.int k)) → |n.value| < 2 ^ 1024 - 2 ^ 970 →
    ∃ x, n.toJson = .number (.float x) ∧
      ∀ y : Binary64, y.IsNearest n.value ∧ y.negative = n.negative ↔ y = x
  /-- Too far from all doubles, it stays as it is. -/
  string : (¬ ∃ k, n.toJson = .number (.int k)) → 2 ^ 1024 - 2 ^ 970 ≤ |n.value| →
    n.toJson = .string t

/-- Every text of the grammar is classified. -/
theorem toJson_classified {t : String} (h : Json.Grammar.Number t.toList []) :
    ∃ n, ofText? t = some n ∧ Classified t n := by
  obtain ⟨n, hn⟩ := Json.Grammar.exists_numeral h
  rw [List.append_nil] at hn
  have htext : n.text = t := by rw [text, ← hn, String.ofList_toList]
  refine ⟨n, by rw [ofText?, hn, ofChars?_chars], htext, ?_, ?_, ?_, ?_⟩
  · rw [exists_int_iff, isInt64_iff]
  · intro k hk
    have hint := exists_int_iff.1 ⟨k, hk⟩
    rw [toJson_of_isInt64 hint] at hk
    cases CanonicalJson.number_injective hk
    exact value_of_isIntegral (isInt64_iff.1 hint).1
  · intro hint hlt
    obtain ⟨x, hx, hnearest⟩ := Binary64.isNearest_ofNumeral? hlt
    refine ⟨x, ?_, hnearest⟩
    rw [exists_int_iff] at hint
    rw [toJson_of_not_isInt64 hint, hx]
  · intro hint hle
    rw [abs_value] at hle
    rw [exists_int_iff] at hint
    rw [toJson_of_not_isInt64 hint, Binary64.ofNumeral?_eq_none_iff.2 hle, htext]

/-- A negative number that is nearer to zero than to any other double. -/
theorem toJson_classified_of_underflow : Json.Grammar.Number "-1e-400".toList [] ∧
    ∃ n, ofText? "-1e-400" = some n ∧ Classified "-1e-400" n := by
  have hnumber : Json.Grammar.Number "-1e-400".toList [] :=
    .negative (.positive (by decide) (.last (by decide))) .none
      (.some (by decide) .minus (.cons (by decide) (.cons (by decide) (.last (by decide)))))
  exact ⟨hnumber, toJson_classified hnumber⟩

/-! ## Stability -/

/-- The numeral of a number that some numeral stands for is read as the same number. -/
theorem toJson_numeral {k : Number} (h : n.toJson = .number k) : k.numeral.toJson = .number k := by
  cases k with
  | int k =>
    have hint := exists_int_iff.1 ⟨k, h⟩
    rw [toJson_of_isInt64 hint] at h
    cases CanonicalJson.number_injective h
    have hinteger := Number.integer_numeral n.integer
    have hintegral := (Number.isIntegral_numeral _).2 ⟨n.integer, rfl⟩
    have hvalue : (Number.int n.integer).numeral.value = n.value := by
      rw [← value_of_isIntegral hintegral, hinteger, value_of_isIntegral (isInt64_iff.1 hint).1]
    have hint' : (Number.int n.integer).numeral.isInt64 = true :=
      isInt64_iff.2 ⟨hintegral, hvalue ▸ (isInt64_iff.1 hint).2⟩
    rw [toJson_of_isInt64 hint', hinteger]
  | float x =>
    have hint : ¬ (Number.float x).numeral.isInt64 = true := fun hint => by
      have hintegral := (isInt64_iff.1 hint).1
      rw [Number.numeral, x.isIntegral_numeral] at hintegral
      cases hintegral
    rw [toJson_of_not_isInt64 hint, Number.numeral, Binary64.ofNumeral?_numeral]

/-- What is written for a number: `w` wherever it stands. -/
structure Stable (k : Number) (w : String) : Prop where
  written : ∀ style depth rest,
    Json.write style depth (CanonicalJson.number k).json rest = w.toList ++ rest
  /-- It is a number text. -/
  grammar : Json.Grammar.Number w.toList []
  /-- It becomes the same number, so that the same is written for it. -/
  read : (ofText? w).map toJson = some (.number k)
  /-- No numeral that is read as the same double has fewer significant digits. -/
  fewest : ∀ x, k = .float x → x.isZero = false → ∃ m, ofText? w = some m ∧
    ∀ d, Binary64.ofNumeral? d = some x → m.significant.length ≤ d.significant.length

/-- What is written for a number text that became a number does not change by being converted. -/
theorem toJson_stable {t : String} {k : Number} (h : (ofText? t).map toJson = some (.number k)) :
    ∃ w, Stable k w := by
  obtain ⟨n, -, hn⟩ := Option.map_eq_some_iff.1 h
  have htoList : k.numeral.text.toList = k.chars := by
    rw [text, String.toList_ofList, Number.chars_numeral]
  have hread : ofText? k.numeral.text = some k.numeral := by
    rw [ofText?, text, String.toList_ofList, ofChars?_chars]
  refine ⟨k.numeral.text, fun style depth rest => ?_, ?_, ?_, ?_⟩
  · rw [htoList]
    rfl
  · have hnumber := Json.Grammar.number_numeral k.numeral []
    rwa [List.append_nil, Number.chars_numeral, ← htoList] at hnumber
  · rw [hread, Option.map_some, toJson_numeral hn]
  · rintro x rfl hx
    exact ⟨x.numeral, hread, fun d hd => Binary64.length_significant_numeral_le hx hd⟩

/-- The double nearest to 10²³, which is less. -/
def belowTen23 : Binary64 := ⟨false, 4950912855330343670, by decide⟩

theorem toJson_stable_of_inexact :
    (ofText? "1e23").map toJson = some (.number (.float belowTen23)) ∧
      ∃ w, Stable (.float belowTen23) w := by
  have hread : ofText? "1e23" = some ⟨false, 1, [], some ⟨false, .bare, 2, [3]⟩⟩ := by decide
  have hdouble : Binary64.ofNumeral? ⟨false, 1, [], some ⟨false, .bare, 2, [3]⟩⟩ =
      some belowTen23 := by
    rw [Binary64.ofNumeral?, Binary64.nearest?_eq]
    decide +kernel
  have hjson : (ofText? "1e23").map toJson = some (.number (.float belowTen23)) := by
    rw [hread, Option.map_some, toJson_of_not_isInt64 (by decide), hdouble]
  exact ⟨hjson, toJson_stable hjson⟩

end Decimal.Numeral

end SdlSchema
