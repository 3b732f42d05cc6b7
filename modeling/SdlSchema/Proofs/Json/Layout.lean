import SdlSchema.Proofs.Json.Literals

/-!
# The layout of a text

Squeezing the blanks between literals out of a text gives the compact text of
the same value, whichever style it was written in (`sift_write`), and the
literals of a text are those of the strings of its value
(`inLiterals_write`).  So the styles differ in nothing but blanks
(`relaid`).
-/

namespace SdlSchema.Json

/-! ## Text in front of a rest -/

section Append

variable {style : Style}

theorem escapeAll_append (cs rest more : List Char) :
    escapeAll cs (rest ++ more) = escapeAll cs rest ++ more := by
  induction cs with
  | nil => rfl
  | cons c cs ih => rw [escapeAll, escapeAll, ih, List.append_assoc]

theorem writeString_append (s : String) (rest more : List Char) :
    writeString s (rest ++ more) = writeString s rest ++ more := by
  rw [writeString, ← List.cons_append, escapeAll_append]
  rfl

theorem newline_append (depth : Nat) (rest more : List Char) :
    style.newline depth (rest ++ more) = style.newline depth rest ++ more := by
  cases style with
  | compact => rfl
  | pretty => simp [Style.newline]

theorem colon_append (rest more : List Char) :
    style.colon (rest ++ more) = style.colon rest ++ more := by
  cases style <;> rfl

mutual

theorem write_append (depth : Nat) (j : Json) (rest more : List Char) :
    write style depth j (rest ++ more) = write style depth j rest ++ more := by
  match j with
  | null | bool true | bool false | array [] | object [] => rfl
  | number n => simp only [write, List.append_assoc]
  | string s => simp only [write, writeString_append]
  | array (e :: es) =>
    simp only [write, ← List.cons_append, newline_append, write_append, writeElements_append]
  | object ((k, v) :: ms) =>
    simp only [write, ← List.cons_append, newline_append, colon_append, writeString_append,
      write_append, writeMembers_append]

theorem writeElements_append (depth : Nat) (es : List Json) (rest more : List Char) :
    writeElements style depth es (rest ++ more) = writeElements style depth es rest ++ more := by
  match es with
  | [] => rfl
  | e :: es =>
    simp only [writeElements, ← List.cons_append, newline_append, write_append,
      writeElements_append]

theorem writeMembers_append (depth : Nat) (ms : List (String × Json)) (rest more : List Char) :
    writeMembers style depth ms (rest ++ more) = writeMembers style depth ms rest ++ more := by
  match ms with
  | [] => rfl
  | (k, v) :: ms =>
    simp only [writeMembers, ← List.cons_append, newline_append, colon_append,
      writeString_append, write_append, writeMembers_append]

end

end Append

/-! ## Squeezed texts -/

/-- Literals and plain characters are kept, and the blanks of the style are not. -/
structure Squeezes (style : Style) (keep : Char × Bool → Bool) : Prop where
  literal : ∀ c, keep (c, true) = true
  plain : ∀ c, Plain c → keep (c, false) = true
  layout : style = .pretty → keep (' ', false) = false ∧ keep ('\n', false) = false

namespace Squeezes

variable {style : Style} {keep : Char × Bool → Bool}

theorem sift_cons (h : Squeezes style keep) {c : Char} (hc : Plain c) (rest : List Char) :
    sift keep (c :: rest) = c :: sift keep rest := by
  rw [Json.sift_cons hc.2.2, if_pos (h.plain c hc)]

theorem sift_append (h : Squeezes style keep) {cs : List Char} (hcs : ∀ c ∈ cs, Plain c)
    (rest : List Char) : sift keep (cs ++ rest) = cs ++ sift keep rest := by
  have hall : cs.filter (fun c => keep (c, false)) = cs :=
    List.filter_eq_self.2 fun c hc => h.plain c (hcs c hc)
  rw [Json.sift_append fun c hc => (hcs c hc).2.2, hall]

theorem sift_writeString (h : Squeezes style keep) (s : String) (rest : List Char) :
    sift keep (writeString s rest) = writeString s (sift keep rest) := by
  rw [Json.sift_writeString h.literal, ← writeString_append, List.nil_append]

end Squeezes

section

variable {style : Style} {keep : Char × Bool → Bool}

theorem sift_newline (h : style = .pretty → keep (' ', false) = false ∧ keep ('\n', false) = false)
    (depth : Nat) (rest : List Char) : sift keep (style.newline depth rest) = sift keep rest := by
  cases style with
  | compact => rfl
  | pretty =>
    obtain ⟨hspace, hfeed⟩ := h rfl
    refine sift_append_of_not_keep (List.forall_mem_cons.2 ⟨⟨by decide, hfeed⟩, ?_⟩) rest
    intro c hc
    rw [List.eq_of_mem_replicate hc]
    exact ⟨by decide, hspace⟩

theorem sift_colon (h : style = .pretty → keep (' ', false) = false ∧ keep ('\n', false) = false)
    (rest : List Char) : sift keep (style.colon rest) = sift keep (':' :: rest) := by
  cases style with
  | compact => rfl
  | pretty =>
    have hspace : sift keep (' ' :: rest) = sift keep rest := by
      rw [sift_cons (by decide), (h rfl).1, if_neg Bool.false_ne_true]
    rw [Style.colon, sift_cons (by decide), hspace, sift_cons (by decide)]

mutual

/-- Squeezed text is compact. -/
theorem sift_write (h : Squeezes style keep) (depth : Nat) (j : Json) (rest : List Char) :
    sift keep (write style depth j rest) = write .compact depth j (sift keep rest) := by
  -- No value ends inside of a literal, so what follows it is squeezed on its own.
  match j with
  | null | bool true | bool false | array [] | object [] =>
    simp (disch := decide) only [write, h.sift_cons]
  | number n => simp only [write, h.sift_append (plain_chars n)]
  | string s => simp only [write, h.sift_writeString]
  | array (e :: es) =>
    simp only [write]
    rw [h.sift_cons (by decide), sift_newline h.layout, sift_write h, sift_writeElements h,
      sift_newline h.layout, h.sift_cons (by decide)]
    rfl
  | object ((k, v) :: ms) =>
    simp only [write]
    rw [h.sift_cons (by decide), sift_newline h.layout, h.sift_writeString, sift_colon h.layout,
      h.sift_cons (by decide), sift_write h, sift_writeMembers h, sift_newline h.layout,
      h.sift_cons (by decide)]
    rfl

theorem sift_writeElements (h : Squeezes style keep) (depth : Nat) (es : List Json)
    (rest : List Char) : sift keep (writeElements style depth es rest) =
      writeElements .compact depth es (sift keep rest) := by
  match es with
  | [] => rfl
  | e :: es =>
    simp only [writeElements]
    rw [h.sift_cons (by decide), sift_newline h.layout, sift_write h, sift_writeElements h]
    rfl

theorem sift_writeMembers (h : Squeezes style keep) (depth : Nat) (ms : List (String × Json))
    (rest : List Char) : sift keep (writeMembers style depth ms rest) =
      writeMembers .compact depth ms (sift keep rest) := by
  match ms with
  | [] => rfl
  | (k, v) :: ms =>
    simp only [writeMembers]
    rw [h.sift_cons (by decide), sift_newline h.layout, h.sift_writeString, sift_colon h.layout,
      h.sift_cons (by decide), sift_write h, sift_writeMembers h]
    rfl

end

end

/-! ## Literals -/

mutual

/-- The strings of a value and the keys of its objects, in the order of its text. -/
def strings : Json → List String
  | string s => [s]
  | array es => stringsOfElements es
  | object ms => stringsOfMembers ms
  | _ => []

def stringsOfElements : List Json → List String
  | [] => []
  | e :: es => e.strings ++ stringsOfElements es

def stringsOfMembers : List (String × Json) → List String
  | [] => []
  | (k, v) :: ms => k :: (v.strings ++ stringsOfMembers ms)

end

/-- The strings in quotes, with their escapes. -/
def quoted (ss : List String) : List Char := ss.flatMap fun s => writeString s []

theorem quoted_cons (s : String) (ss : List String) :
    quoted (s :: ss) = writeString s [] ++ quoted ss := rfl

theorem quoted_append (ss ss' : List String) : quoted (ss ++ ss') = quoted ss ++ quoted ss' :=
  List.flatMap_append

theorem inLiterals_cons {c : Char} (hc : c ≠ '"') (rest : List Char) :
    inLiterals (c :: rest) = inLiterals rest := by
  rw [inLiterals, sift_cons hc, if_neg Bool.false_ne_true, inLiterals]

theorem inLiterals_append {cs : List Char} (hcs : ∀ c ∈ cs, Plain c) (rest : List Char) :
    inLiterals (cs ++ rest) = inLiterals rest :=
  sift_append_of_not_keep (fun c hc => ⟨(hcs c hc).2.2, rfl⟩) rest

theorem inLiterals_writeString (s : String) (rest : List Char) :
    inLiterals (writeString s rest) = writeString s [] ++ inLiterals rest :=
  sift_writeString (fun _ => rfl) s rest

theorem inLiterals_newline (style : Style) (depth : Nat) (rest : List Char) :
    inLiterals (style.newline depth rest) = inLiterals rest :=
  sift_newline (fun _ => ⟨rfl, rfl⟩) depth rest

theorem inLiterals_colon (style : Style) (rest : List Char) :
    inLiterals (style.colon rest) = inLiterals rest := by
  rw [inLiterals, sift_colon fun _ => ⟨rfl, rfl⟩]
  exact inLiterals_cons (by decide) rest

section

variable (style : Style)

mutual

/-- The literals of a text are those of the strings, whatever the style. -/
theorem inLiterals_write (depth : Nat) (j : Json) (rest : List Char) :
    inLiterals (write style depth j rest) = quoted j.strings ++ inLiterals rest := by
  match j with
  | null | bool true | bool false | array [] | object [] =>
    simp (disch := decide) only [write, inLiterals_cons]
    rfl
  | number n =>
    simp only [write, inLiterals_append (plain_chars n)]
    rfl
  | string s =>
    rw [write, inLiterals_writeString, strings, quoted_cons, List.append_assoc]
    rfl
  | array (e :: es) =>
    simp (disch := decide) only [write, inLiterals_cons, inLiterals_newline, inLiterals_write,
      inLiterals_writeElements, strings, stringsOfElements, quoted_append, List.append_assoc]
  | object ((k, v) :: ms) =>
    simp (disch := decide) only [write, inLiterals_cons, inLiterals_newline,
      inLiterals_writeString, inLiterals_colon, inLiterals_write, inLiterals_writeMembers, strings,
      stringsOfMembers, quoted_cons, quoted_append, List.append_assoc]

theorem inLiterals_writeElements (depth : Nat) (es : List Json) (rest : List Char) :
    inLiterals (writeElements style depth es rest) =
      quoted (stringsOfElements es) ++ inLiterals rest := by
  match es with
  | [] => rfl
  | e :: es =>
    simp (disch := decide) only [writeElements, inLiterals_cons, inLiterals_newline,
      inLiterals_write, inLiterals_writeElements, stringsOfElements, quoted_append,
      List.append_assoc]

theorem inLiterals_writeMembers (depth : Nat) (ms : List (String × Json)) (rest : List Char) :
    inLiterals (writeMembers style depth ms rest) =
      quoted (stringsOfMembers ms) ++ inLiterals rest := by
  match ms with
  | [] => rfl
  | (k, v) :: ms =>
    simp (disch := decide) only [writeMembers, inLiterals_cons, inLiterals_newline,
      inLiterals_writeString, inLiterals_colon, inLiterals_write, inLiterals_writeMembers,
      stringsOfMembers, quoted_cons, quoted_append, List.append_assoc]

end

end

/-! ## The two styles -/

/-- A blank of the pretty layout. -/
def isPadding (c : Char) : Bool := c = ' ' || c = '\n'

/-- Without the blanks of its layout the pretty text is the compact one, which has no white space
outside of literals, and the literals of both are the strings of the value. -/
structure Relaid (j : Json) : Prop where
  squeezed : squeeze isPadding (j.text .pretty) = j.text .compact
  tight : ∀ c ∈ surroundings (j.text .compact), WhiteSpace.holds c = false
  literals : ∀ style, literals (j.text style) = quoted j.strings

theorem squeezes_isPadding (style : Style) : Squeezes style fun m => m.2 || !isPadding m.1 where
  literal _ := rfl
  plain c hc := by
    obtain ⟨hlow, -, -⟩ := hc
    have hspace : c ≠ ' ' := by
      rintro rfl
      exact absurd hlow (by decide)
    have hfeed : c ≠ '\n' := by
      rintro rfl
      exact absurd hlow (by decide)
    simp [isPadding, hspace, hfeed]
  layout _ := by decide

theorem squeezes_whiteSpace : Squeezes .compact fun m => m.2 || !WhiteSpace.holds m.1 where
  literal _ := rfl
  plain c hc := by rw [hc.not_whiteSpace]; rfl
  layout := nofun

/-- What is left of a text without the blanks of its layout does not depend on the style, whatever
follows it. -/
theorem squeeze_text_append (style : Style) (j : Json) (more : String) :
    squeeze isPadding (j.text style ++ more) =
      String.ofList (write .compact 0 j (sift (fun m => m.2 || !isPadding m.1) more.toList)) := by
  rw [squeeze, String.toList_append, text, String.toList_ofList, chars, ← write_append,
    List.nil_append, sift_write (squeezes_isPadding style)]

theorem literals_text_append (style : Style) (j : Json) (more : String) :
    literals (j.text style ++ more) = quoted j.strings ++ literals more := by
  rw [literals, String.toList_append, text, String.toList_ofList, chars, ← write_append,
    List.nil_append, inLiterals_write, literals]

theorem relaid (j : Json) : j.Relaid where
  squeezed := by
    rw [← String.append_empty (s := j.text .pretty), squeeze_text_append]
    rfl
  tight := by
    intro c hc
    have hkept : ∀ m ∈ scan .outside (j.text .compact).toList,
        (m.2 || !WhiteSpace.holds m.1) = true := by
      refine keep_of_sift_eq_self ?_
      rw [text, String.toList_ofList, chars, sift_write squeezes_whiteSpace]
      rfl
    obtain ⟨⟨c, mark⟩, hm, rfl⟩ := List.mem_map.1 hc
    obtain ⟨hscan, hmark⟩ := List.mem_filter.1 hm
    cases mark with
    | true => cases hmark
    | false => simpa using hkept _ hscan
  literals style := by
    rw [← String.append_empty (s := j.text style), literals_text_append]
    exact List.append_nil _

/-- A quote that is escaped does not end a literal, so the blank behind it stays. -/
example : squeeze isPadding "[1, \"a\\\" b\"]" = "[1,\"a\\\" b\"]" := by decide

/-- The texts are the same but for blanks between literals. -/
structure Respaced (text text' : String) : Prop where
  squeezed : squeeze isPadding text' = squeeze isPadding text
  literals : literals text' = literals text

theorem Respaced.refl (text : String) : Respaced text text := ⟨rfl, rfl⟩

theorem respaced_text (style style' : Style) (j : Json) (more : String) :
    Respaced (j.text style ++ more) (j.text style' ++ more) where
  squeezed := by rw [squeeze_text_append, squeeze_text_append]
  literals := by rw [literals_text_append, literals_text_append]

end SdlSchema.Json
