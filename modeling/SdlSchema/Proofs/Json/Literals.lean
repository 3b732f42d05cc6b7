import SdlSchema.Proofs.Json.Number
import SdlSchema.WhiteSpace

/-!
# Literals in a text

A quote opens a string literal and the next one closes it, unless it stands
behind a backslash, so whether a character belongs to a literal depends on all
characters before it.  A scan marks the characters that do.  A written string
is marked as a whole, whatever is in it (`scan_writeString`).
-/

namespace SdlSchema.Json

open Decimal

/-! ## Scanning for literals -/

/-- Where a scan can be. -/
inductive Place where
  | outside
  | literal
  /-- In a literal, behind a backslash. -/
  | escape

namespace Place

/-- Where the next character leads. -/
def next : Place → Char → Place
  | outside, c => if c = '"' then literal else outside
  | literal, c => if c = '"' then outside else if c = '\\' then escape else literal
  | escape, _ => literal

/-- The next character belongs to a literal, as its quotes do. -/
def marks : Place → Char → Bool
  | outside, c => c = '"'
  | literal, _ => true
  | escape, _ => true

end Place

/-- The characters, each with a mark if it belongs to a literal. -/
def scan : Place → List Char → List (Char × Bool)
  | _, [] => []
  | p, c :: cs => (c, p.marks c) :: scan (p.next c) cs

/-- The characters of a text that are to be kept, which may depend on their marks. -/
def sift (keep : Char × Bool → Bool) (cs : List Char) : List Char :=
  ((scan .outside cs).filter keep).map Prod.fst

/-- The text without the given blanks, except for those in literals. -/
def squeeze (blank : Char → Bool) (text : String) : String :=
  String.ofList (sift (fun m => m.2 || !blank m.1) text.toList)

/-- The characters in literals. -/
def inLiterals (cs : List Char) : List Char := sift (fun m => m.2) cs

/-- The literals of a text, one behind the other. -/
def literals (text : String) : List Char := inLiterals text.toList

/-- What stands outside of the literals. -/
def surroundings (text : String) : List Char := sift (fun m => !m.2) text.toList

/-! ### Literals -/

theorem scan_literal_cons {c : Char} (hquote : c ≠ '"') (hbackslash : c ≠ '\\')
    (rest : List Char) : scan .literal (c :: rest) = (c, true) :: scan .literal rest := by
  simp [scan, Place.marks, Place.next, hquote, hbackslash]

/-- The escape of a character does not end the literal that it is in. -/
theorem scan_escape (c : Char) (rest : List Char) :
    scan .literal (escape c ++ rest) =
      (escape c).map (fun c => (c, true)) ++ scan .literal rest := by
  by_cases hquote : c = '"'
  · subst hquote
    rfl
  have hdigit : ∀ n < 16, Escape.hexDigit n ≠ '"' ∧ Escape.hexDigit n ≠ '\\' := by decide
  unfold escape
  split
  case h_8 hbackslash _ _ _ _ _ =>
    split
    · next hcontrol =>
      obtain ⟨hhigh, hhigh'⟩ := hdigit (c.toNat / 16) (by omega)
      obtain ⟨hlow, hlow'⟩ := hdigit (c.toNat % 16) (by omega)
      simp [scan, Place.marks, Place.next, hhigh, hhigh', hlow, hlow']
    · exact scan_literal_cons hquote hbackslash rest
  all_goals rfl

theorem scan_escapeAll (cs rest : List Char) :
    scan .literal (escapeAll cs ('"' :: rest)) =
      (escapeAll cs ['"']).map (fun c => (c, true)) ++ scan .outside rest := by
  induction cs with
  | nil => rfl
  | cons c cs ih =>
    rw [escapeAll, scan_escape, ih, escapeAll, List.map_append, List.append_assoc]

theorem scan_writeString (s : String) (rest : List Char) :
    scan .outside (writeString s rest) =
      (writeString s []).map (fun c => (c, true)) ++ scan .outside rest := by
  have hquote : scan .outside (writeString s rest) =
      ('"', true) :: scan .literal (escapeAll s.toList ('"' :: rest)) := rfl
  rw [hquote, scan_escapeAll]
  rfl

/-! ### What is kept -/

section

variable {keep : Char × Bool → Bool}

theorem sift_cons {c : Char} (hc : c ≠ '"') (rest : List Char) :
    sift keep (c :: rest) = if keep (c, false) then c :: sift keep rest else sift keep rest := by
  have hscan : scan .outside (c :: rest) = (c, false) :: scan .outside rest := by
    simp [scan, Place.marks, Place.next, hc]
  rw [sift, hscan, List.filter_cons]
  split <;> rfl

theorem sift_append {cs : List Char} (hcs : ∀ c ∈ cs, c ≠ '"') (rest : List Char) :
    sift keep (cs ++ rest) = cs.filter (fun c => keep (c, false)) ++ sift keep rest := by
  induction cs with
  | nil => rfl
  | cons c cs ih =>
    rw [List.forall_mem_cons] at hcs
    rw [List.cons_append, sift_cons hcs.1, List.filter_cons, ih hcs.2]
    split <;> rfl

/-- Characters between literals that are not kept do not count. -/
theorem sift_append_of_not_keep {cs : List Char}
    (hcs : ∀ c ∈ cs, c ≠ '"' ∧ keep (c, false) = false) (rest : List Char) :
    sift keep (cs ++ rest) = sift keep rest := by
  have hnone : cs.filter (fun c => keep (c, false)) = [] :=
    List.filter_eq_nil_iff.2 fun c hc => Bool.eq_false_iff.1 (hcs c hc).2
  rw [sift_append fun c hc => (hcs c hc).1, hnone, List.nil_append]

/-- A string is kept as it is if everything in literals is. -/
theorem sift_writeString (hkeep : ∀ c, keep (c, true) = true) (s : String) (rest : List Char) :
    sift keep (writeString s rest) = writeString s [] ++ sift keep rest := by
  have hall : ((writeString s []).map fun c => (c, true)).filter keep =
      (writeString s []).map fun c => (c, true) := by
    refine List.filter_eq_self.2 fun m hm => ?_
    obtain ⟨c, -, rfl⟩ := List.mem_map.1 hm
    exact hkeep c
  rw [sift, scan_writeString, List.filter_append, hall, List.map_append, List.map_map]
  exact congrArg (· ++ sift keep rest) (List.map_id _)

theorem map_fst_scan (p : Place) (cs : List Char) : (scan p cs).map Prod.fst = cs := by
  induction cs generalizing p with
  | nil => rfl
  | cons c cs ih => rw [scan, List.map_cons, ih]

/-- If all characters are kept, then what is not kept does not occur. -/
theorem keep_of_sift_eq_self {cs : List Char} (h : sift keep cs = cs) :
    ∀ m ∈ scan .outside cs, keep m = true := by
  have hkept := congrArg List.length h
  have hscan := congrArg List.length (map_fst_scan .outside cs)
  rw [sift, List.length_map] at hkept
  rw [List.length_map] at hscan
  exact List.length_filter_eq_length_iff.1 (hkept.trans hscan.symm)

end

/-! ## Plain characters -/

/-- Is visible and no quote, as all characters outside of literals are but for the layout. -/
def Plain (c : Char) : Prop := 0x20 < c.toNat ∧ c.toNat < 0x7F ∧ c ≠ '"'

instance : DecidablePred Plain := fun c =>
  inferInstanceAs (Decidable (0x20 < c.toNat ∧ c.toNat < 0x7F ∧ c ≠ '"'))

theorem Plain.not_whiteSpace {c : Char} (h : Plain c) : WhiteSpace.holds c = false := by
  obtain ⟨hlow, hhigh, -⟩ := h
  simp only [WhiteSpace.holds, Bool.or_eq_false_iff, Bool.and_eq_false_iff,
    decide_eq_false_iff_not]
  omega

theorem plain_toChar (d : Digit) : Plain d.toChar := by
  revert d
  decide

theorem plain_map_toChar (ds : List Digit) : ∀ c ∈ ds.map Digit.toChar, Plain c := by
  intro c hc
  obtain ⟨d, -, rfl⟩ := List.mem_map.1 hc
  exact plain_toChar d

theorem plain_fractionChars (ds : List Digit) : ∀ c ∈ Numeral.fractionChars ds, Plain c := by
  cases ds with
  | nil => nofun
  | cons d ds => exact List.forall_mem_cons.2 ⟨by decide, plain_map_toChar (d :: ds)⟩

theorem plain_signChars (sign : ExponentSign) : ∀ c ∈ sign.chars, Plain c := by
  cases sign with
  | bare => nofun
  | plus => exact List.forall_mem_singleton.2 (by decide)
  | minus => exact List.forall_mem_singleton.2 (by decide)

theorem plain_exponentChars (e : Option Exponent) : ∀ c ∈ Numeral.exponentChars e, Plain c := by
  cases e with
  | none => nofun
  | some e =>
    obtain ⟨upper, sign, first, more⟩ := e
    have hmark : Plain (if upper then 'E' else 'e') := by cases upper <;> decide
    refine List.forall_mem_cons.2 ⟨hmark, ?_⟩
    exact List.forall_mem_append.2 ⟨plain_signChars sign, plain_map_toChar (first :: more)⟩

theorem plain_chars (n : Number) : ∀ c ∈ n.chars, Plain c := by
  rw [← Number.chars_numeral, Numeral.chars_eq]
  refine List.forall_mem_append.2 ⟨?_, List.forall_mem_append.2 ⟨plain_map_toChar _,
    List.forall_mem_append.2 ⟨plain_fractionChars _, plain_exponentChars _⟩⟩⟩
  cases n.numeral.negative with
  | true => exact List.forall_mem_singleton.2 (by decide)
  | false => nofun

end SdlSchema.Json
