import SdlSchema.Proofs.Decimal.Numeral
import SdlSchema.Proofs.Json.Strings
import SdlSchema.Proofs.Sdl.Spelling

/-!
# Reading tokens undoes spelling them

A token is read back from each of its spellings (`Token.Spelling.run_read`),
so a list of tokens is read back from each text that spells it
(`Spells.ofChars?`).
-/

namespace SdlSchema.Sdl

open Reader

/-! ## Strings -/

namespace StringLiteral

theorem run_readHexDigit {c : Char} {n : Nat} (h : Escape.hexValue? c = some n) (rest : List Char) :
    Escape.readHexDigit.run (c :: rest) = some (n, rest) := by
  simp [Escape.readHexDigit, h]

theorem IsUnit.run_readUnit {u : List Char} {n : Nat} (h : IsUnit u n) (rest : List Char) :
    Escape.readUnit.run (u ++ rest) = some (n, rest) := by
  obtain ⟨h⟩ := h
  obtain ⟨a, u, rfl, ha, h⟩ := List.map_eq_cons_iff.1 h
  obtain ⟨b, u, rfl, hb, h⟩ := List.map_eq_cons_iff.1 h
  obtain ⟨c, u, rfl, hc, h⟩ := List.map_eq_cons_iff.1 h
  obtain ⟨d, u, rfl, hd, h⟩ := List.map_eq_cons_iff.1 h
  obtain rfl := List.map_eq_nil_iff.1 h
  simp only [Escape.readUnit, List.cons_append, List.nil_append, run_bind, run_readHexDigit ha,
    run_readHexDigit hb, run_readHexDigit hc, run_readHexDigit hd, run_pure]

/-- The braces of an escape are no digits. -/
theorem IsUnit.run_accept {u : List Char} {n : Nat} (h : IsUnit u n) (rest : List Char) :
    (Reader.accept '{').run (u ++ rest) = some (false, u ++ rest) := by
  obtain ⟨h⟩ := h
  obtain ⟨c, u, rfl, hc, -⟩ := List.map_eq_cons_iff.1 h
  refine Decimal.run_accept_of_ne ?_
  rintro c' hc' rfl
  cases hc'
  cases hc

/-- No character has the number of a surrogate. -/
theorem isHighSurrogate_of_charOf? {n : Nat} {c : Char} (h : Escape.charOf? n = some c) :
    Escape.isHighSurrogate n = false := by
  unfold Escape.charOf? at h
  split at h
  · next hvalid =>
    unfold Nat.isValidChar at hvalid
    simp only [Escape.isHighSurrogate, Bool.and_eq_false_iff, decide_eq_false_iff_not]
    omega
  · cases h

theorem run_expect (c : Char) (rest : List Char) :
    (Reader.expect c).run (c :: rest) = some ((), rest) := by
  simp [Reader.expect, Decimal.run_accept]

theorem run_readBraced {ds : List Char} {ns : List Nat} {c : Char} (hne : ds ≠ [])
    (hds : ds.map Escape.hexValue? = ns.map some) (hc : Escape.charOfHex? ns = some c)
    (rest : List Char) : readBraced.run (ds ++ '}' :: rest) = some (c, rest) := by
  have hdigits : (Reader.upTo (· = '}') fun c => Reader.ofOption (Escape.hexValue? c)).run
      (ds ++ '}' :: rest) = some (ns, rest) := by
    clear hne hc
    induction ds generalizing ns with
    | nil =>
      obtain rfl := List.map_eq_nil_iff.1 hds.symm
      exact run_upTo_stop _ _ (by decide)
    | cons d ds ih =>
      obtain ⟨n, ns, rfl, hd, hds⟩ := List.map_eq_cons_iff.1 hds.symm
      have hclose : d ≠ '}' := by
        rintro rfl
        cases hd
      have hrun : (Reader.ofOption (Escape.hexValue? d)).run (ds ++ '}' :: rest) =
          some (n, ds ++ '}' :: rest) := by
        rw [← hd]
        rfl
      rw [List.cons_append, run_upTo_cons (by simpa using hclose) hrun, ih hds.symm]
      rfl
  have hns : ns.isEmpty = false := by
    cases ns with
    | nil => exact absurd (List.map_eq_nil_iff.1 hds) hne
    | cons n ns => rfl
  simp [readBraced, someUpTo, hdigits, hns, hc]

/-- How `readQuoted` goes on with the next character. -/
def character (c : Char) : Reader Char Char :=
  if c = '\\' then readEscape
  else do
    Reader.guard !(isLineEnd c)
    pure c

theorem CharSpelling.run_character {c : Char} {cs : List Char} (h : CharSpelling c cs)
    (rest : List Char) : ∃ first more, cs = first :: more ∧ first ≠ '"' ∧
      isLineEnd first = false ∧ (character first).run (more ++ rest) = some (c, rest) := by
  cases h with
  | plain hquote hbackslash hline =>
    refine ⟨c, [], rfl, hquote, hline, ?_⟩
    simp [character, hbackslash, hline]
  | @letter l h =>
    have hl : l ≠ 'u' := by
      rintro rfl
      cases h
    refine ⟨'\\', [l], rfl, by decide, by decide, ?_⟩
    simp [character, readEscape, hl, h]
  | @unit u n hu hc =>
    -- the number of a character is no surrogate, so that no second unit has to follow
    have hunits := Escape.run_readUnits (isHighSurrogate_of_charOf? hc) (hu.run_readUnit rest)
    refine ⟨'\\', 'u' :: u, rfl, by decide, by decide, ?_⟩
    simp [character, readEscape, hu.run_accept, hunits, hc]
  | @surrogates u v m n hu hv hm hn hc =>
    refine ⟨'\\', 'u' :: (u ++ '\\' :: 'u' :: v), rfl, by decide, by decide, ?_⟩
    simp [character, readEscape, hu.run_accept, Escape.readUnits, hu.run_readUnit,
      hv.run_readUnit, run_expect, hm, hn, hc]
  | @braced ds ns hne hds hc =>
    refine ⟨'\\', 'u' :: '{' :: (ds ++ ['}']), rfl, by decide, by decide, ?_⟩
    simp [character, readEscape, Decimal.run_accept, run_readBraced hne hds hc]

theorem Spelling.run_upTo_character {s text : List Char} (h : Spelling s text)
    (rest : List Char) :
    (Reader.upTo (· = '"') character).run (text ++ '"' :: rest) = some (s, rest) := by
  induction h with
  | nil => exact run_upTo_stop _ _ (by decide)
  | @cons c s cs text hc _ ih =>
    obtain ⟨first, more, rfl, hquote, -, hrun⟩ := hc.run_character (text ++ '"' :: rest)
    rw [List.append_assoc, List.cons_append, run_upTo_cons (by simpa using hquote) hrun, ih]
    rfl

/-- No spelling starts with a line end. -/
theorem run_readQuoted {first : Char} (hline : isLineEnd first = false) {s more rest : List Char}
    (h : (Reader.upTo (· = '"') character).run (first :: more) = some (s, rest)) :
    readQuoted.run (first :: more) = some (s, rest) := by
  change (Reader.peek? >>= fun first? => Reader.acceptIf isLineEnd >>= fun opening =>
    Reader.upTo (· = '"') character >>= fun cs =>
      pure (if opening then first?.toList ++ cs else cs)).run (first :: more) = _
  simp [peek?, acceptIf, hline, h]

/-- Only an empty string makes a difference to what its closing quote is followed by. -/
theorem Spelling.run_readString {s : String} {text rest : List Char}
    (h : Spelling s.toList text) (hends : s = "" → ∀ c ∈ rest.head?, c ≠ '"') :
    Token.readString.run (text ++ '"' :: rest) = some (.string s, rest) := by
  have hquoted := h.run_upTo_character rest
  generalize hs : s.toList = cs at h
  cases h with
  | nil =>
    obtain rfl : s = "" := String.toList_eq_nil_iff.1 hs
    simp [Token.readString, Decimal.run_accept, Decimal.run_accept_of_ne (hends rfl)]
  | @cons c s' cs text hc _ =>
    obtain ⟨first, more, rfl, hquote, hline, -⟩ := hc.run_character []
    -- without a second quote there is neither an empty string nor a block
    have haccept : (Reader.accept '"').run (first :: (more ++ (text ++ '"' :: rest))) =
        some (false, first :: (more ++ (text ++ '"' :: rest))) := by
      refine Decimal.run_accept_of_ne fun c' hc' => ?_
      cases hc'
      exact hquote
    rw [List.append_assoc, List.cons_append] at hquoted
    rw [List.append_assoc, List.cons_append]
    simp [Token.readString, haccept, run_readQuoted hline hquoted]

end StringLiteral

/-! ## Tokens -/

namespace Token

theorem isNameChar_of_isDigit {c : Char} (h : Decimal.Digit.isDigit c = true) :
    isNameChar c = true := by
  unfold Decimal.Digit.isDigit Decimal.Digit.ofChar? at h
  split at h
  · next hrange =>
    have hlow : '0' ≤ c := Char.le_def.2 (UInt32.le_iff_toNat_le.2 hrange.1)
    have hhigh : c ≤ '9' := Char.le_def.2 (UInt32.le_iff_toNat_le.2 (Nat.le_of_lt_succ hrange.2))
    simp [isNameChar, hlow, hhigh]
  · cases h

/-- A numeral ends where no name and no point follows. -/
theorem ends_of_not_runsInto {n : Decimal.Numeral} {rest : List Char}
    (h : ∀ c ∈ rest.head?, ¬ RunsInto (.number n) c) : Decimal.Ends rest := by
  intro c hc
  have hname : ¬ isNameChar c = true := fun hname => h c hc (.inl hname)
  refine ⟨?_, fun hpoint => h c hc (.inr hpoint), ?_, ?_⟩
  · exact Bool.eq_false_iff.2 fun hdigit => hname (isNameChar_of_isDigit hdigit)
  · rintro rfl
    exact hname rfl
  · rintro rfl
    exact hname rfl

theorem run_readNumber {n : Decimal.Numeral} {c : Char} {more rest : List Char}
    (hn : n.chars = c :: more) (hends : ∀ c ∈ rest.head?, ¬ RunsInto (.number n) c) :
    (readNumber c).run (more ++ rest) = some (.number n, rest) := by
  have hread := Decimal.Numeral.run_read n (ends_of_not_runsInto hends)
  rw [hn, List.cons_append, Decimal.Numeral.read, run_bind, run_next_cons] at hread
  have hguard : (rest.head?.any fun c => isNameChar c || c = '.') = false := by
    cases rest with
    | nil => rfl
    | cons c rest =>
      have hc := hends c rfl
      simp only [RunsInto, not_or] at hc
      simp [hc]
  simp [readNumber, hread, peek?, hguard]

theorem Piece.read_eq {c : Char} (hignored : isIgnored c = false) (hcomma : c ≠ ',')
    (hcomment : c ≠ '#') : Piece.read c = Piece.token <$> Token.read c := by
  rw [Piece.read, hignored, if_neg Bool.false_ne_true, if_neg hcomma, if_neg hcomment]

theorem run_name {c : Char} {more rest : List Char} (hc : isNameStart c = true)
    (hmore : more.all isNameChar = true) (hrest : ∀ c ∈ rest.head?, ¬ isNameChar c = true) :
    (Piece.read c).run (more ++ rest) =
      some (.token (.name (String.ofList (c :: more))), rest) := by
  have hne (c' : Char) (h' : isNameStart c' = false) : c ≠ c' := by
    rintro rfl
    rw [hc] at h'
    cases h'
  have hignored : isIgnored c = false := by
    simp [isIgnored, hne ' ' rfl, hne '\t' rfl, hne '\n' rfl, hne '\r' rfl, hne '\uFEFF' rfl]
  have hspan : (Reader.span isNameChar).run (more ++ rest) = some (more, rest) :=
    run_span (List.all_eq_true.1 hmore) fun c hc => Bool.eq_false_iff.2 (hrest c hc)
  rw [Piece.read_eq hignored (hne ',' rfl) (hne '#' rfl), Token.read, if_pos hc]
  simp [hspan]

/-- A numeral starts with its sign or with its first digit. -/
theorem exists_chars (n : Decimal.Numeral) : ∃ c more, n.chars = c :: more ∧
    (c = '-' ∨ ∃ d, c = Decimal.Digit.toChar d) := by
  rw [Decimal.Numeral.chars_eq]
  cases n.negative with
  | true => exact ⟨'-', _, rfl, .inl rfl⟩
  | false =>
    obtain ⟨d, ds, hd⟩ := List.exists_cons_of_ne_nil (Decimal.digits_ne_nil n.whole)
    rw [Decimal.natChars, hd]
    exact ⟨d.toChar, _, rfl, .inr ⟨d, rfl⟩⟩

theorem read_eq_readNumber {c : Char} (h : c = '-' ∨ ∃ d, c = Decimal.Digit.toChar d) :
    Piece.read c = Piece.token <$> readNumber c := by
  obtain rfl | ⟨d, rfl⟩ := h
  · rfl
  · have hignored : ∀ d, isIgnored (Decimal.Digit.toChar d) = false := by decide
    have hstart : ∀ d, isNameStart (Decimal.Digit.toChar d) = false := by decide
    have hpunct : ∀ d, Punctuator.ofChar? (Decimal.Digit.toChar d) = none := by decide
    have hne {c : Char} (h : Decimal.Digit.isDigit c = false) : d.toChar ≠ c :=
      Decimal.Digit.toChar_ne h d
    rw [Piece.read_eq (hignored d) (hne (by decide)) (hne (by decide)), Token.read, hstart,
      if_neg Bool.false_ne_true, if_neg (hne (by decide)), if_neg (hne (by decide)), hpunct]

/-- A token is read back from each of its spellings, unless it runs into what follows. -/
theorem Spelling.run_read {t : Token} {cs rest : List Char} (h : t.Spelling cs)
    (hends : ∀ c ∈ rest.head?, ¬ t.RunsInto c) :
    ∃ c more, cs = c :: more ∧ (Piece.read c).run (more ++ rest) = some (.token t, rest) := by
  cases h with
  | punct p =>
    cases p <;> exact ⟨_, _, rfl, rfl⟩
  | @name s h =>
    obtain ⟨hstart, hall⟩ := h
    obtain ⟨c, hc⟩ : ∃ c, s.toList.head? = some c := by
      cases hs : s.toList.head? with
      | none => simp [hs] at hstart
      | some c => exact ⟨c, rfl⟩
    obtain ⟨more, hs⟩ := List.head?_eq_some_iff.1 hc
    rw [hs] at hstart hall
    refine ⟨c, more, hs, ?_⟩
    have hmore : more.all isNameChar = true := (Bool.and_eq_true _ _ ▸ hall).2
    rw [run_name hstart hmore hends, ← hs, String.ofList_toList]
  | number n =>
    obtain ⟨c, more, hn, hc⟩ := exists_chars n
    refine ⟨c, more, hn, ?_⟩
    rw [read_eq_readNumber hc, run_map, run_readNumber hn hends]
    rfl
  | @string s text h =>
    refine ⟨'"', text ++ ['"'], rfl, ?_⟩
    have hread : readString.run (text ++ '"' :: rest) = some (.string s, rest) :=
      h.run_readString fun hs c hc hquote => hends c hc ⟨hs, hquote⟩
    have hpiece : Piece.read '"' = Piece.token <$> readString := rfl
    rw [hpiece, List.append_assoc, List.singleton_append, run_map, hread]
    rfl

end Token

/-! ## Texts -/

/-- The tokens among pieces. -/
def Piece.tokens : List Piece → List Token
  | [] => []
  | .token t :: ps => t :: tokens ps
  | _ :: ps => tokens ps

theorem Lexeme.map_token_ofPieces (afterComma : Bool) (ps : List Piece) :
    (ofPieces afterComma ps).map token = Piece.tokens ps := by
  induction ps generalizing afterComma with
  | nil => rfl
  | cons p ps ih =>
    cases p with
    | ignored => exact ih afterComma
    | comma => exact ih true
    | token t => exact congrArg (t :: ·) (ih false)

/-- The text can be cut into pieces among which are the given tokens. -/
def Cuts (s : List Char) (ts : List Token) : Prop :=
  ∃ ps, (toEnd Piece.read).readAll? s = some ps ∧ Piece.tokens ps = ts

theorem cuts_nil : Cuts [] [] := ⟨[], readAll?_toEnd_nil, rfl⟩

theorem Cuts.cons {c : Char} {s rest : List Char} {p : Piece} {ts : List Token}
    (hread : (Piece.read c).run s = some (p, rest)) (h : Cuts rest ts) :
    Cuts (c :: s) (Piece.tokens [p] ++ ts) := by
  obtain ⟨ps, hps, rfl⟩ := h
  refine ⟨p :: ps, ?_, ?_⟩
  · rw [readAll?_toEnd_cons, hread, Option.bind_some, hps]
    rfl
  · cases p <;> rfl

theorem Piece.run_blank {c : Char} (hc : Token.isIgnored c = true) (s : List Char) :
    (Piece.read c).run s = some (.ignored, s) := by
  rw [Piece.read, if_pos hc]
  rfl

/-- A comment is read up to the end of its line. -/
theorem Piece.run_comment {text rest : List Char}
    (htext : ∀ c ∈ text, StringLiteral.isLineEnd c = false)
    (hrest : ∀ c ∈ rest.head?, StringLiteral.isLineEnd c = true) :
    (Piece.read '#').run (text ++ rest) = some (.ignored, rest) := by
  have hspan : (Reader.span fun c => !StringLiteral.isLineEnd c).run (text ++ rest) =
      some (text, rest) :=
    run_span (fun c hc => by simp [htext c hc]) fun c hc => by simp [hrest c hc]
  have hread : Piece.read '#' = (Reader.span fun c => !StringLiteral.isLineEnd c) >>= fun _ =>
    pure Piece.ignored := rfl
  rw [hread, run_bind, hspan]
  rfl

theorem isIgnored_of_isLineEnd {c : Char} (h : StringLiteral.isLineEnd c = true) :
    Token.isIgnored c = true := by
  simp only [StringLiteral.isLineEnd, Bool.or_eq_true, decide_eq_true_eq] at h
  rcases h with rfl | rfl <;> rfl

theorem Ignored.cuts {gap : List Char} (h : Ignored gap) {s : List Char} {ts : List Token}
    (hs : Cuts s ts) : Cuts (gap ++ s) ts := by
  induction h with
  | nil => exact hs
  | blank hc _ ih => exact ih.cons (Piece.run_blank hc _)
  | @comma gap _ ih =>
    have hcomma : (Piece.read ',').run (gap ++ s) = some (.comma, gap ++ s) := rfl
    exact ih.cons hcomma
  | @comment text gap c htext hc _ ih =>
    have hline : Cuts (c :: (gap ++ s)) ts :=
      ih.cons (Piece.run_blank (isIgnored_of_isLineEnd hc) _)
    have hcomment : (Piece.read '#').run (text ++ c :: (gap ++ s)) =
        some (.ignored, c :: (gap ++ s)) := by
      refine Piece.run_comment htext fun c' hc' => ?_
      cases hc'
      exact hc
    rw [List.cons_append, List.append_assoc, List.cons_append]
    exact hline.cons hcomment

theorem Spells.cuts {ts : List Token} {s : List Char} (h : Spells ts s) : Cuts s ts := by
  induction h with
  | nil hgap =>
    have hcuts := hgap.cuts cuts_nil
    rwa [List.append_nil] at hcuts
  | @cons t ts gap cs rest hgap ht _ hends ih =>
    obtain ⟨c, more, rfl, hread⟩ := ht.run_read hends
    exact hgap.cuts (ih.cons hread)

/-- A list of tokens is read back from each text that spells it. -/
theorem Spells.ofChars? {ts : List Token} {s : List Char} (h : Spells ts s) :
    ∃ ls, Lexeme.ofChars? s = some ls ∧ ls.map Lexeme.token = ts := by
  obtain ⟨ps, hps, rfl⟩ := h.cuts
  exact ⟨_, by rw [Lexeme.ofChars?, hps, Option.map_some], Lexeme.map_token_ofPieces false ps⟩

end SdlSchema.Sdl
