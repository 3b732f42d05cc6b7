import SdlSchema.Proofs.Sdl.Spelling
import SdlSchema.Proofs.Sdl.Writing

/-!
# Every document has a text

Whatever definitions the grammar has tokens for, there is a text that spells
them, provided that their names are names (`exists_spells_of_written`): every
character can be written in a string, and blanks keep any two tokens apart.
-/

namespace SdlSchema.Sdl

/-! ## Strings and tokens -/

namespace StringLiteral

theorem exists_charSpelling (c : Char) : ∃ cs, CharSpelling c cs := by
  by_cases hquote : c = '"'
  · exact ⟨_, .letter (l := '"') (by rw [hquote]; rfl)⟩
  by_cases hbackslash : c = '\\'
  · exact ⟨_, .letter (l := '\\') (by rw [hbackslash]; rfl)⟩
  cases hline : isLineEnd c with
  | false => exact ⟨_, .plain hquote hbackslash hline⟩
  | true =>
    simp only [isLineEnd, Bool.or_eq_true, decide_eq_true_eq] at hline
    rcases hline with rfl | rfl
    · exact ⟨_, .letter (l := 'n') rfl⟩
    · exact ⟨_, .letter (l := 'r') rfl⟩

theorem exists_spelling (s : List Char) : ∃ text, Spelling s text := by
  induction s with
  | nil => exact ⟨[], .nil⟩
  | cons c s ih =>
    obtain ⟨cs, hc⟩ := exists_charSpelling c
    obtain ⟨text, hs⟩ := ih
    exact ⟨cs ++ text, .cons hc hs⟩

end StringLiteral

/-- All names among the tokens are names. -/
def AreNames (ts : List Token) : Prop := ∀ s, .name s ∈ ts → IsName s

@[simp] theorem areNames_nil : AreNames [] := by simp [AreNames]

@[simp] theorem areNames_name (s : String) (ts : List Token) :
    AreNames (.name s :: ts) ↔ IsName s ∧ AreNames ts := by
  simp [AreNames, or_imp, forall_and]

@[simp] theorem areNames_punct (p : Punctuator) (ts : List Token) :
    AreNames (.punct p :: ts) ↔ AreNames ts := by simp [AreNames]

@[simp] theorem areNames_number (n : Decimal.Numeral) (ts : List Token) :
    AreNames (.number n :: ts) ↔ AreNames ts := by simp [AreNames]

@[simp] theorem areNames_string (s : String) (ts : List Token) :
    AreNames (.string s :: ts) ↔ AreNames ts := by simp [AreNames]

@[simp] theorem areNames_append (ts us : List Token) :
    AreNames (ts ++ us) ↔ AreNames ts ∧ AreNames us := by
  simp [AreNames, or_imp, forall_and]

theorem Token.exists_spelling {t : Token} (h : AreNames [t]) : ∃ cs, t.Spelling cs := by
  cases t with
  | punct p => exact ⟨_, .punct p⟩
  | name s => exact ⟨_, .name (h s List.mem_cons_self)⟩
  | number n => exact ⟨_, .number n⟩
  | string s =>
    obtain ⟨text, htext⟩ := StringLiteral.exists_spelling s.toList
    exact ⟨_, .string htext⟩

theorem Token.not_runsInto_blank (t : Token) : ¬ t.RunsInto ' ' := by
  cases t with
  | punct p => exact id
  | name s => exact Bool.false_ne_true
  | number n => exact not_or.2 ⟨Bool.false_ne_true, by decide⟩
  | string s => exact fun h => absurd h.2 (by decide)

/-- Tokens can be written with a blank in front of each. -/
theorem exists_spells {ts : List Token} (h : AreNames ts) :
    ∃ s, Spells ts s ∧ ∀ c ∈ s.head?, c = ' ' := by
  induction ts with
  | nil => exact ⟨[], .nil .nil, nofun⟩
  | cons t ts ih =>
    rw [← List.singleton_append, areNames_append] at h
    obtain ⟨cs, hcs⟩ := Token.exists_spelling h.1
    obtain ⟨s, hs, hblank⟩ := ih h.2
    -- no token runs into the blank of the next one
    refine ⟨' ' :: (cs ++ s), .cons (.blank rfl .nil) hcs hs fun c hc => ?_, ?_⟩
    · rw [hblank c hc]
      exact t.not_runsInto_blank
    · rintro c ⟨⟩
      rfl

/-! ## The names among the tokens of a definition -/

theorem areNames_flatten (items : List (List Token)) :
    AreNames items.flatten ↔ ∀ ts ∈ items, AreNames ts := by
  induction items with
  | nil => simp
  | cons ts items ih => simp [ih]

theorem areNames_blockTokens (opening closing : Punctuator) (items : List (List Token)) :
    AreNames (blockTokens opening closing items) ↔ ∀ ts ∈ items, AreNames ts := by
  cases items with
  | nil => simp [blockTokens]
  | cons ts items =>
    change AreNames (.punct opening :: ((ts :: items).flatten ++ [.punct closing])) ↔ _
    rw [areNames_punct, areNames_append, areNames_flatten]
    simp

theorem areNames_separatedTokens {separator : Punctuator} (lead : Bool) {ts : List Token}
    (h : AreNames ts) : AreNames (separatedTokens separator lead ts) := by
  have hmore (ts : List Token) (h : AreNames ts) :
      AreNames (ts.flatMap fun t => [.punct separator, t]) := by
    induction ts with
    | nil => exact areNames_nil
    | cons t ts ih =>
      rw [← List.singleton_append, areNames_append] at h
      rw [List.flatMap_cons, areNames_append, areNames_punct]
      exact ⟨h.1, ih h.2⟩
  cases ts with
  | nil => exact h
  | cons t ts =>
    rw [← List.singleton_append, areNames_append] at h
    have hfirst : AreNames (t :: ts.flatMap fun t => [.punct separator, t]) :=
      (areNames_append [t] _).2 ⟨h.1, hmore ts h.2⟩
    cases lead with
    | false => exact hfirst
    | true => exact (areNames_punct separator _).2 hfirst

theorem areNames_bangTokens (nonNull : Bool) : AreNames (bangTokens nonNull) := by
  cases nonNull <;> simp [bangTokens]

theorem TypeRef.areNames_tokens {t : TypeRef} (h : IsName t.innermost) : AreNames t.tokens := by
  induction t with
  | named n nonNull => exact (areNames_name n _).2 ⟨h, areNames_bangTokens nonNull⟩
  | list t nonNull ih => simp [tokens, ih h, areNames_bangTokens]

namespace Const

mutual

theorem areNames_tokens : ∀ c : Const, (∀ n ∈ c.names, IsName n) → AreNames c.tokens
  | .null, _ => by simp [tokens]; decide
  | .boolean true, _ => by simp [tokens]; decide
  | .boolean false, _ => by simp [tokens]; decide
  | .number n, _ => by simp [tokens]
  | .string s, _ => by simp [tokens]
  | .enum n, h => by simpa [tokens, names] using h
  | .variable n, h => by simpa [tokens, names] using h
  | .list es, h => by simpa [tokens] using areNames_tokensOfElements es h
  | .object fs, h => by simpa [tokens] using areNames_tokensOfFields fs h

theorem areNames_tokensOfElements : ∀ es : List Const, (∀ n ∈ namesOfElements es, IsName n) →
    AreNames (tokensOfElements es)
  | [], _ => areNames_nil
  | e :: es, h => by
    simp only [namesOfElements, List.mem_append, or_imp, forall_and] at h
    exact (areNames_append _ _).2 ⟨areNames_tokens e h.1, areNames_tokensOfElements es h.2⟩

theorem areNames_tokensOfFields : ∀ fs : List (String × Const),
    (∀ n ∈ namesOfFields fs, IsName n) → AreNames (tokensOfFields fs)
  | [], _ => areNames_nil
  | (k, v) :: fs, h => by
    simp only [namesOfFields, List.mem_cons, List.mem_append, or_imp, forall_and, forall_eq] at h
    simpa [tokensOfFields, h.1] using
      And.intro (areNames_tokens v h.2.1) (areNames_tokensOfFields fs h.2.2)

end

end Const

theorem areNames_block {α : Type} {opening closing : Punctuator} {as : List α}
    {tokens : α → List Token} (h : ∀ a ∈ as, AreNames (tokens a)) :
    AreNames (blockTokens opening closing (as.map tokens)) := by
  rw [areNames_blockTokens]
  intro ts hts
  obtain ⟨a, ha, rfl⟩ := List.mem_map.1 hts
  exact h a ha

theorem areNames_block_flatMap {α : Type} {opening closing : Punctuator} {as : List α}
    {tokens : α → List Token} {names : α → List String}
    (hitem : ∀ {a}, (∀ n ∈ names a, IsName n) → AreNames (tokens a))
    (h : ∀ n ∈ as.flatMap names, IsName n) :
    AreNames (blockTokens opening closing (as.map tokens)) :=
  areNames_block fun a ha => hitem fun n hn => h n (List.mem_flatMap.2 ⟨a, ha, hn⟩)

theorem InputValue.areNames_tokens {v : InputValue} (h : ∀ n ∈ v.names, IsName n) :
    AreNames v.tokens := by
  obtain ⟨name, type, default?⟩ := v
  simp only [names, List.mem_cons, or_imp, forall_and, forall_eq] at h
  obtain ⟨hname, htype, hdefault⟩ := h
  have hvalue : AreNames (defaultTokens default?) := by
    cases default? with
    | none => simp [defaultTokens]
    | some c => exact (areNames_punct .equals c.tokens).2 (c.areNames_tokens hdefault)
  simp [tokens, hname, TypeRef.areNames_tokens htype, hvalue]

theorem Field.areNames_tokens {f : Field} (h : ∀ n ∈ f.names, IsName n) : AreNames f.tokens := by
  obtain ⟨name, type, arguments⟩ := f
  simp only [names, List.mem_cons, or_imp, forall_and, forall_eq] at h
  obtain ⟨hname, htype, harguments⟩ := h
  have hblock : AreNames (blockTokens .parenL .parenR (arguments.map InputValue.tokens)) :=
    areNames_block_flatMap InputValue.areNames_tokens harguments
  simp [tokens, hname, TypeRef.areNames_tokens htype, hblock]

theorem areNames_map_name {ss : List String} (h : ∀ s ∈ ss, IsName s) :
    AreNames (ss.map .name) := by
  intro s hs
  obtain ⟨s', hs', heq⟩ := List.mem_map.1 hs
  cases heq
  exact h s hs'

theorem isName_location (l : Location) : IsName l.name := by cases l <;> decide

theorem DirectiveDefinition.areNames_tokens (lead : Bool) {d : DirectiveDefinition}
    (h : ∀ n ∈ (Definition.directive d).names, IsName n) : AreNames (d.tokens lead) := by
  obtain ⟨name, arguments, repeatable, locations⟩ := d
  simp only [Definition.names, List.mem_cons, or_imp, forall_and, forall_eq] at h
  have harguments : AreNames (blockTokens .parenL .parenR (arguments.map InputValue.tokens)) :=
    areNames_block_flatMap InputValue.areNames_tokens h.2
  have hrepeatable : AreNames (if repeatable then [.name "repeatable"] else []) := by
    cases repeatable with
    | false => exact areNames_nil
    | true => exact (areNames_name "repeatable" []).2 ⟨by decide, areNames_nil⟩
  have hlocations : AreNames (locations.map fun l => .name l.name) := by
    intro s hs
    obtain ⟨l, -, heq⟩ := List.mem_map.1 hs
    cases heq
    exact isName_location l
  have hdirective : IsName "directive" := by decide
  have hon : IsName "on" := by decide
  simp only [tokens, areNames_name, areNames_punct, areNames_append]
  exact ⟨hdirective, h.1, harguments, hrepeatable, hon, areNames_separatedTokens lead hlocations⟩

theorem areNames_named {keyword name : String} {ts : List Token} (hkeyword : IsName keyword)
    (hname : IsName name) (hts : AreNames ts) : AreNames (.name keyword :: .name name :: ts) :=
  (areNames_name _ _).2 ⟨hkeyword, (areNames_name _ _).2 ⟨hname, hts⟩⟩

theorem areNames_memberTokens (lead : Bool) {members : List String}
    (h : ∀ m ∈ members, IsName m) : AreNames (memberTokens lead members) := by
  cases members with
  | nil => exact areNames_nil
  | cons member members =>
    exact (areNames_punct .equals _).2 (areNames_separatedTokens lead (areNames_map_name h))

theorem Definition.areNames_tokens (lead : Bool) {d : Definition} (h : ∀ n ∈ d.names, IsName n) :
    AreNames (d.tokens lead) := by
  cases d with
  | scalar name => exact areNames_named (by decide) (h name List.mem_cons_self) areNames_nil
  | object name fields | interface name fields =>
    obtain ⟨hname, hfields⟩ := List.forall_mem_cons.1 h
    exact areNames_named (by decide) hname (areNames_block_flatMap Field.areNames_tokens hfields)
  | union name members =>
    obtain ⟨hname, hmembers⟩ := List.forall_mem_cons.1 h
    exact areNames_named (by decide) hname (areNames_memberTokens lead hmembers)
  | enum name values =>
    obtain ⟨hname, hvalues⟩ := List.forall_mem_cons.1 h
    exact areNames_named (by decide) hname (areNames_block fun v hv =>
      (areNames_name v []).2 ⟨hvalues v hv, areNames_nil⟩)
  | input name fields =>
    obtain ⟨hname, hfields⟩ := List.forall_mem_cons.1 h
    exact areNames_named (by decide) hname
      (areNames_block_flatMap InputValue.areNames_tokens hfields)
  | directive d => exact d.areNames_tokens lead h
  | schema | schemaExtension | typeExtension | operation | fragment => exact areNames_nil

/-! ## Documents -/

theorem exists_spells_of_written {ds : List Definition} (h : ∀ d ∈ ds, ∀ n ∈ d.names, IsName n) :
    ∃ ts s, Written ds ts ∧ Spells ts s := by
  have hwritten : ∃ ts, Written ds ts ∧ AreNames ts := by
    induction ds with
    | nil => exact ⟨[], .nil, areNames_nil⟩
    | cons d ds ih =>
      obtain ⟨hd, hds⟩ := List.forall_mem_cons.1 h
      obtain ⟨ts, hts, hnames⟩ := ih hds
      exact ⟨_, .cons false hts,
        (areNames_append _ _).2 ⟨Definition.areNames_tokens false hd, hnames⟩⟩
  obtain ⟨ts, hts, hnames⟩ := hwritten
  obtain ⟨s, hs, -⟩ := exists_spells hnames
  exact ⟨ts, s, hts, hs⟩

end SdlSchema.Sdl
