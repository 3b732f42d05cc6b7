import SdlSchema.Json.Read
import SdlSchema.Proofs.Reader

/-!
# Reading a string undoes writing it

Each character is read back from its escape, whatever comes after it
(`run_character_escape`), and so is a whole string (`run_readString`).  A
written string is therefore determined together with the text behind it
(`writeString_inj`).
-/

namespace SdlSchema

namespace Escape

theorem hexValue?_hexDigit {n : Nat} (h : n < 16) : hexValue? (hexDigit n) = some n := by
  revert n
  decide

/-- The two digits that are written for a control character. -/
theorem hexValue?_control {c : Char} (h : c.toNat < 0x20) :
    hexValue? (hexDigit (c.toNat / 16)) = some (c.toNat / 16) ∧
      hexValue? (hexDigit (c.toNat % 16)) = some (c.toNat % 16) :=
  ⟨hexValue?_hexDigit (by omega), hexValue?_hexDigit (by omega)⟩

theorem charOf?_control {c : Char} (h : c.toNat < 0x20) : charOf? c.toNat = some c := by
  have hlt : c.toNat < 0xD800 := by omega
  have hvalid : c.toNat.isValidChar := Or.inl hlt
  exact (if_pos hvalid).trans (congrArg some (Char.ofNat_toNat c))

/-- A unit that is no high surrogate stands for itself. -/
theorem run_readUnits {n : Nat} {s rest : List Char} (h : isHighSurrogate n = false)
    (hunit : readUnit.run s = some (n, rest)) :
    readUnits.run s = (charOf? n).map fun c => (c, rest) := by
  simp only [readUnits, Reader.run_bind, hunit, h, Bool.false_eq_true, if_false]
  cases charOf? n <;> rfl

/-- A control character is read back from its four digits. -/
theorem run_readUnits_control {c : Char} (h : c.toNat < 0x20) (rest : List Char) :
    readUnits.run ('0' :: '0' :: hexDigit (c.toNat / 16) :: hexDigit (c.toNat % 16) :: rest) =
      some (c, rest) := by
  have hzero : hexValue? '0' = some 0 := rfl
  obtain ⟨hhigh, hlow⟩ := hexValue?_control h
  have hunit : readUnit.run
      ('0' :: '0' :: hexDigit (c.toNat / 16) :: hexDigit (c.toNat % 16) :: rest) =
        some (c.toNat, rest) := by
    simp only [readUnit, readHexDigit, Reader.run_bind, Reader.next, hzero, hhigh, hlow,
      Reader.ofOption, Reader.run_pure]
    have hsum : ((0 * 16 + 0) * 16 + c.toNat / 16) * 16 + c.toNat % 16 = c.toNat := by omega
    rw [hsum]
  have hsurrogate : isHighSurrogate c.toNat = false := by
    simp only [isHighSurrogate, Bool.and_eq_false_iff, decide_eq_false_iff_not]
    omega
  rw [run_readUnits hsurrogate hunit, charOf?_control h]
  rfl

end Escape

namespace Json

/-- How `readString` goes on with the next character. -/
def character (c : Char) : Reader Char Char :=
  if c = '\\' then readEscape
  else do
    Reader.guard (0x20 ≤ c.toNat)
    pure c

theorem readString_eq :
    readString = Reader.upTo (· = '"') character >>= fun cs => pure (String.ofList cs) := rfl

/-- A character is read back from its escape, which does not end the string. -/
theorem run_character_escape (c : Char) (rest : List Char) : ∃ first more,
    escape c = first :: more ∧ first ≠ '"' ∧
      (character first).run (more ++ rest) = some (c, rest) := by
  by_cases hquote : c = '"'
  · subst hquote
    exact ⟨_, _, rfl, by decide, rfl⟩
  unfold escape
  split
  case h_8 hbackslash _ _ _ _ _ =>
    split
    · next hcontrol =>
      refine ⟨_, _, rfl, by decide, ?_⟩
      simpa [character, readEscape, Reader.next] using Escape.run_readUnits_control hcontrol rest
    · next hcontrol =>
      refine ⟨_, _, rfl, hquote, ?_⟩
      have hguard : 32 ≤ c.toNat := by omega
      have hplain : c ≠ '\\' := hbackslash
      simp [character, hplain, hguard, Reader.guard]
  all_goals exact ⟨_, _, rfl, by decide, rfl⟩

theorem run_upTo_escapeAll (cs rest : List Char) :
    (Reader.upTo (· = '"') character).run (escapeAll cs ('"' :: rest)) = some (cs, rest) := by
  induction cs with
  | nil => exact Reader.run_upTo_stop _ _ (by decide)
  | cons c cs ih =>
    obtain ⟨first, more, hescape, hquote, hrun⟩ :=
      run_character_escape c (escapeAll cs ('"' :: rest))
    rw [escapeAll, hescape, List.cons_append, Reader.run_upTo_cons (by simpa using hquote) hrun,
      ih]
    rfl

/-- A string is read back from its escaped characters. -/
theorem run_readString (s : String) (rest : List Char) :
    readString.run (escapeAll s.toList ('"' :: rest)) = some (s, rest) := by
  simp [readString_eq, run_upTo_escapeAll]

/-- A written string is determined by the text that starts with it, and so is what follows. -/
theorem writeString_inj {s s' : String} {rest rest' : List Char}
    (h : writeString s rest = writeString s' rest') : s = s' ∧ rest = rest' := by
  have hrun := run_readString s rest
  rw [(List.cons.inj h).2, run_readString] at hrun
  obtain ⟨hs, hrest⟩ := Prod.mk.inj (Option.some.inj hrun)
  exact ⟨hs.symm, hrest.symm⟩

end Json

end SdlSchema
