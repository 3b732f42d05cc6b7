import SdlSchema.Proofs.Reader.Append
import SdlSchema.Sdl.Token

/-!
# The tokens of a text with another one behind it

No token goes on behind a line feed, so a text that can be cut into tokens is
cut in the same way when a line feed and a second text stand behind it
(`ofChars?_append`).  All that the second text can notice of the first one is a
comma at its end.
-/

namespace SdlSchema

open Reader

/-! ## Before a line feed -/

section LineFeed

variable {t : List Char}

/-- What holds of a line feed holds of the next character. -/
theorem head_lineFeed {P : Char → Prop} (h : P '\n') : ∀ c ∈ ('\n' :: t).head?, P c := by
  intro c hc
  cases hc
  exact h

theorem keeps_accept {c : Char} (h : decide ('\n' = c) = false) :
    Keeps ('\n' :: t) (accept c) :=
  keeps_acceptIf (head_lineFeed h)

/-! ### Numerals -/

namespace Decimal

theorem keeps_readDigits : Keeps ('\n' :: t) readDigits :=
  (keeps_span (head_lineFeed (by decide))).bind fun cs => .pure _

theorem keeps_readDigits₁ : Keeps ('\n' :: t) readDigits₁ := by
  refine keeps_next.bind fun c => (keeps_ofOption _).bind fun d => ?_
  exact keeps_readDigits.bind fun ds => .pure (d, ds)

namespace Numeral

theorem keeps_readWhole (d : Digit) : Keeps ('\n' :: t) (readWhole d) := by
  unfold readWhole
  split
  · exact .pure 0
  · exact keeps_readDigits.bind fun ds => .pure _

theorem keeps_readFraction : Keeps ('\n' :: t) readFraction := by
  refine (keeps_accept (by decide)).bind fun point => ?_
  split
  · exact keeps_readDigits₁.bind fun ds => .pure _
  · exact .pure []

theorem keeps_readSign : Keeps ('\n' :: t) readSign := by
  refine (keeps_accept (by decide)).bind fun plus => ?_
  split
  · exact .pure _
  · refine (keeps_accept (by decide)).bind fun minus => ?_
    split <;> exact .pure _

theorem keeps_readExponent : Keeps ('\n' :: t) readExponent := by
  refine (keeps_accept (by decide)).bind fun upper => ?_
  have hmarked (lower : Bool) : Keeps ('\n' :: t) (if upper || lower then do
      let sign ← readSign
      let digits ← readDigits₁
      pure (some (Exponent.mk upper sign digits.1 digits.2))
    else pure none) := by
    split
    · exact keeps_readSign.bind fun sign => keeps_readDigits₁.bind fun ds => .pure _
    · exact .pure none
  dsimp only
  split
  · exact (Keeps.pure false).bind hmarked
  · exact (keeps_accept (by decide)).bind hmarked

theorem keeps_readAfter (c : Char) : Keeps ('\n' :: t) (readAfter c) := by
  have hfrom (c' : Char) : Keeps ('\n' :: t) (do
      let d ← ofOption (Digit.ofChar? c')
      let whole ← readWhole d
      let fraction ← readFraction
      let exponent ← readExponent
      pure (Numeral.mk (c = '-') whole fraction exponent)) := by
    refine (keeps_ofOption _).bind fun d => (keeps_readWhole d).bind fun whole => ?_
    exact keeps_readFraction.bind fun _ => keeps_readExponent.bind fun _ => .pure _
  unfold readAfter
  dsimp only
  split
  · exact keeps_next.bind hfrom
  · exact (Keeps.pure c).bind hfrom

end Numeral

end Decimal

/-! ### Strings -/

namespace Escape

theorem keeps_readHexDigit : Keeps ('\n' :: t) readHexDigit :=
  keeps_next.bind fun _ => keeps_ofOption _

theorem keeps_readUnit : Keeps ('\n' :: t) readUnit := by
  refine keeps_readHexDigit.bind fun a => keeps_readHexDigit.bind fun b => ?_
  exact keeps_readHexDigit.bind fun c => keeps_readHexDigit.bind fun d => .pure _

theorem keeps_readUnits : Keeps ('\n' :: t) readUnits := by
  refine keeps_readUnit.bind fun u => ?_
  split
  · refine (keeps_expectIf _).bind fun _ => (keeps_expectIf _).bind fun _ => ?_
    exact keeps_readUnit.bind fun v => (keeps_guard _).bind fun _ => keeps_ofOption _
  · exact keeps_ofOption _

end Escape

namespace Sdl

namespace StringLiteral

theorem keeps_readBraced : Keeps ('\n' :: t) readBraced := by
  refine (keeps_someUpTo fun c => ?_).bind fun ds => keeps_ofOption _
  exact (keeps_ofOption _).inside

theorem keeps_readEscape : Keeps ('\n' :: t) readEscape := by
  refine keeps_next.bind fun c => ?_
  split
  · refine (keeps_accept (by decide)).bind fun braced => ?_
    split
    · exact keeps_readBraced
    · exact Escape.keeps_readUnits
  · exact keeps_ofOption _

/-- A line end is looked for only in front of a closing quote. -/
theorem keeps_readQuoted : Keeps ('\n' :: t) readQuoted := by
  have hcharacter : ∀ c, Keeps ('\n' :: t)
      (if c = '\\' then readEscape else do Reader.guard !(isLineEnd c); pure c) := by
    intro c
    split
    · exact keeps_readEscape
    · exact (keeps_guard _).bind fun _ => .pure c
  have hfails {item : Char → Reader Char Char} : (upTo (· = '"') item).run [] = none := run_upTo_nil
  refine keepsInside_peek?.bind_keeps (fun first? => ?_) fun first? => ?_
  · refine (keepsInside_acceptIf _).bind_keeps (fun opening => ?_) fun opening => ?_
    · exact (keeps_upTo fun c => (hcharacter c).inside).bind fun cs => .pure _
    · rw [run_bind, hfails]
  · rw [run_bind, acceptIf]
    simp only [run_bind, hfails]

/-- The quotes at the end of a block make sure that all of it is there. -/
theorem blockBody_append {s more : List Char} : ∀ {cs rest}, blockBody s = some (cs, rest) →
    3 ≤ s.length ∧ blockBody (s ++ more) = some (cs, rest ++ more) := by
  fun_induction blockBody s with
  | case1 rest =>
    intro cs rest' h
    cases h
    exact ⟨by simp, rfl⟩
  | case2 rest ih =>
    intro cs rest' h
    obtain ⟨⟨cs', mid⟩, hb, heq⟩ := Option.map_eq_some_iff.1 h
    cases heq
    obtain ⟨-, hmore⟩ := ih hb
    refine ⟨by simp, ?_⟩
    simp [blockBody, hmore]
  | case3 c rest hclose hescape ih =>
    intro cs rest' h
    obtain ⟨⟨cs', mid⟩, hb, heq⟩ := Option.map_eq_some_iff.1 h
    cases heq
    obtain ⟨hlength, hmore⟩ := ih hb
    refine ⟨Nat.le_succ_of_le hlength, ?_⟩
    -- the next three characters are there, so it is not for lack of them that no quotes come
    obtain ⟨x, y, z, tail, rfl⟩ : ∃ x y z tail, rest = x :: y :: z :: tail := by
      match rest, hlength with
      | x :: y :: z :: tail, _ => exact ⟨x, y, z, tail, rfl⟩
    rw [List.cons_append, blockBody, hmore]
    · rfl
    · intro rest' hc hrest
      cases hrest
      exact hclose (z :: tail) hc rfl
    · intro rest' hc hrest
      cases hrest
      exact hescape tail hc rfl
  | case4 => simp

theorem keeps_readBlock : Keeps ('\n' :: t) readBlock :=
  Keeps.map blockValue fun _ _ _ h => (blockBody_append h).2

end StringLiteral

/-! ### Tokens -/

namespace Token

theorem keeps_readNumber (c : Char) : Keeps ('\n' :: t) (readNumber c) := by
  refine (Decimal.Numeral.keeps_readAfter c).bind fun n => ?_
  rw [← bind_assoc]
  exact (keeps_guardNext (head_lineFeed (by decide))).bind fun _ => .pure _

theorem keeps_readString : Keeps ('\n' :: t) readString := by
  refine (keeps_accept (by decide)).bind fun second => ?_
  have hvalue (cs : List Char) : Keeps ('\n' :: t) (pure (string (String.ofList cs))) := .pure _
  dsimp only
  split
  · refine (keeps_accept (by decide)).bind fun third => ?_
    split
    · exact StringLiteral.keeps_readBlock.bind hvalue
    · exact (Keeps.pure []).bind hvalue
  · exact StringLiteral.keeps_readQuoted.bind hvalue

theorem keeps_read (c : Char) : Keeps ('\n' :: t) (read c) := by
  unfold read
  split
  · exact (keeps_span (head_lineFeed (by decide))).bind fun cs => .pure _
  split
  · exact keeps_readString
  split
  · exact (keeps_expectIf _).bind fun _ => (keeps_expectIf _).bind fun _ => .pure _
  split
  · exact .pure _
  · exact keeps_readNumber c

end Token

theorem Piece.keeps_read (c : Char) : Keeps ('\n' :: t) (read c) := by
  unfold read
  split
  · exact .pure _
  split
  · exact .pure _
  split
  · exact (keeps_span (head_lineFeed (by decide))).bind fun _ => .pure _
  · exact (Token.keeps_read c).map _

end Sdl

end LineFeed

/-! ## Lexemes -/

namespace Sdl.Lexeme

/-- The lexemes, but for what is in front of the first one. -/
def ignoringFirstComma : List Lexeme → List Lexeme
  | [] => []
  | l :: ls => ⟨l.token, false⟩ :: ls

theorem ignoringFirstComma_ofPieces (afterComma afterComma' : Bool) (ps : List Piece) :
    ignoringFirstComma (ofPieces afterComma ps) =
      ignoringFirstComma (ofPieces afterComma' ps) := by
  induction ps generalizing afterComma afterComma' with
  | nil => rfl
  | cons p ps ih =>
    cases p with
    | ignored => exact ih afterComma afterComma'
    | comma => rfl
    | token t => rfl

theorem ofPieces_append (afterComma : Bool) (ps : List Piece) : ∃ afterComma', ∀ qs,
    ofPieces afterComma (ps ++ qs) = ofPieces afterComma ps ++ ofPieces afterComma' qs := by
  induction ps generalizing afterComma with
  | nil => exact ⟨afterComma, fun _ => rfl⟩
  | cons p ps ih =>
    cases p with
    | ignored => exact ih afterComma
    | comma => exact ih true
    | token t =>
      obtain ⟨afterComma', h⟩ := ih false
      refine ⟨afterComma', fun qs => ?_⟩
      simp only [List.cons_append, ofPieces, h qs]

/-- Two texts on lines of their own have the tokens of the first and then those of the second. -/
theorem ofChars?_append {s t : List Char} {ls ms : List Lexeme} (hs : ofChars? s = some ls)
    (ht : ofChars? t = some ms) : ∃ ms', ofChars? (s ++ '\n' :: t) = some (ls ++ ms') ∧
      ignoringFirstComma ms' = ignoringFirstComma ms := by
  obtain ⟨ps, hps, rfl⟩ := Option.map_eq_some_iff.1 hs
  obtain ⟨qs, hqs, rfl⟩ := Option.map_eq_some_iff.1 ht
  obtain ⟨afterComma, hpieces⟩ := ofPieces_append false ps
  have hline : (toEnd Piece.read).readAll? ('\n' :: t) = some (.ignored :: qs) := by
    have hread : (Piece.read '\n').run t = some (.ignored, t) := rfl
    rw [readAll?_toEnd_cons, hread, Option.bind_some, hqs]
    rfl
  refine ⟨ofPieces afterComma qs, ?_, ignoringFirstComma_ofPieces _ _ qs⟩
  rw [ofChars?, readAll?_toEnd_append Piece.keeps_read hps, hline]
  exact congrArg some (hpieces (.ignored :: qs))

end Sdl.Lexeme

end SdlSchema
