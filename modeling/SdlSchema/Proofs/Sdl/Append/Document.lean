import SdlSchema.Proofs.Sdl.Append.Token
import SdlSchema.Sdl.Document

/-!
# The definitions of a text with another one behind it

No definition goes on with the first token of another one, unless that is an
opening brace: the words that a definition can go on with start none.  So the
readers of the grammar keep their results before a definition
(`keeps_readDefinition`), and the definitions of two texts one behind the other
are those of the first and then those of the second (`ofChars?_append`).
-/

namespace SdlSchema.Sdl

open Reader

namespace Grammar

theorem readValue_cases (executable : Bool) (depth : Nat) (t : Token) :
    t = .punct .bracketL ∨ t = .punct .braceL ∨
      readValue executable depth t = readScalar executable t := by
  by_cases hlist : t = .punct .bracketL
  · exact .inl hlist
  by_cases hobject : t = .punct .braceL
  · exact .inr (.inl hobject)
  refine .inr (.inr ?_)
  cases depth <;> rw [readValue] <;> simp_all

/-! ## The start of a definition -/

/-- A string, or a name that no definition goes on with. -/
def IsStart : Token → Prop
  | .string _ => True
  | .name s => s ≠ "implements" ∧ s ≠ "repeatable" ∧ s ≠ "on"
  | _ => False

/-- Only an operation starts with something else. -/
theorem isStart_of_run {depth : Nat} {t : Token} {ls rest : List Lexeme} {d : Definition}
    (h : (readDefinition depth t).run ls = some (d, rest)) (hd : d ≠ .operation) : IsStart t := by
  unfold readDefinition at h
  split at h
  · trivial
  · obtain ⟨_, _, -, hpure⟩ := run_bind_eq_some.1 h
    cases hpure
    exact absurd rfl hd
  · refine ⟨?_, ?_, ?_⟩
    all_goals
      rintro rfl
      simp [isOperation, readTypeSystem, fail] at h
  · cases h

section Before

variable {more : List Lexeme} (hmore : ∀ l ∈ more.head?, IsStart l.token)
include hmore

/-! ## Small parts -/

theorem keeps_accept (p : Punctuator) : Keeps more (accept p) := by
  refine keeps_acceptIf fun l hl => ?_
  have hstart := hmore l hl
  cases hp : l.token <;> simp_all [IsStart]

theorem keeps_acceptName {s : String} (hs : s = "implements" ∨ s = "repeatable" ∨ s = "on") :
    Keeps more (acceptName s) := by
  refine keeps_acceptIf fun l hl => ?_
  have hstart := hmore l hl
  rcases hs with rfl | rfl | rfl
  all_goals cases hp : l.token <;> simp_all [IsStart]

omit hmore

theorem keeps_expect (p : Punctuator) : Keeps more (expect p) := keeps_expectIf _

theorem keeps_expectName (s : String) : Keeps more (expectName s) := keeps_expectIf _

theorem keepsInside_acceptAnyName : KeepsInside more acceptAnyName := keepsInside_acceptIf _

theorem keeps_nextToken : Keeps more Grammar.next := Reader.keeps_next.bind fun _ => .pure _

theorem keeps_nameOf (t : Token) : Keeps more (nameOf t) := by
  cases t with
  | name s => exact .pure s
  | punct | number | string => exact keeps_fail

theorem keeps_readName : Keeps more readName := keeps_nextToken.bind keeps_nameOf

/-- A comma is looked for only in front of something else. -/
theorem keepsInside_noComma : KeepsInside more noComma :=
  keepsInside_peek?.bind fun _ => (keeps_guard _).inside

theorem keeps_described (t : Token) : Keeps more (described t) := by
  cases t with
  | string s => exact keeps_nextToken
  | punct | number | name => exact .pure _

include hmore

theorem keeps_optionalBlock {α : Type} (opening closing : Punctuator)
    {item : Token → TokenReader α} (hitem : ∀ t, KeepsInside more (item t)) :
    Keeps more (optionalBlock opening closing item) := by
  refine (keeps_accept hmore opening).bind fun opened => ?_
  split
  · exact keeps_someUpTo fun l => hitem l.token
  · exact .pure []

theorem keeps_manyAfter {α : Type} (p : Punctuator) {item : TokenReader α}
    (hitem : Keeps more item) :
    Keeps more (Reader.many (fun l => l.token = .punct p) fun _ => item) := by
  refine keeps_many (fun l hl => ?_) fun _ => hitem
  have hstart := hmore l hl
  cases hp : l.token <;> simp_all [IsStart]

theorem keeps_readSeparated {α : Type} (separator : Punctuator) {item : TokenReader α}
    (hitem : Keeps more item) : Keeps more (readSeparated separator item) := by
  refine (keeps_accept hmore separator).bind fun _ => hitem.bind fun first => ?_
  exact (keeps_manyAfter hmore separator hitem).bind fun more => .pure _

/-! ## Types and values -/

theorem keeps_readNamed : Keeps more (do
    let n ← readName
    pure (TypeRef.named n (← accept .bang))) :=
  keeps_readName.bind fun _ => (keeps_accept hmore .bang).bind fun _ => .pure _

theorem keeps_readType (depth : Nat) : Keeps more (readType depth) := by
  induction depth with
  | zero => exact keeps_readNamed hmore
  | succ depth ih =>
    refine (keeps_accept hmore .bracketL).bind fun isList => ?_
    split
    · refine ih.bind fun t => (keeps_expect .bracketR).bind fun _ => ?_
      exact (keeps_accept hmore .bang).bind fun _ => .pure _
    · exact keeps_readNamed hmore

omit hmore in
theorem keeps_readScalar (executable : Bool) (t : Token) :
    Keeps more (readScalar executable t) := by
  unfold readScalar
  split
  · exact .pure _
  · exact .pure _
  · exact .pure _
  · exact (keeps_guard _).bind fun _ => keeps_readName.bind fun _ => .pure _
  · exact keeps_fail

theorem keeps_readValue (executable : Bool) (depth : Nat) (t : Token) :
    Keeps more (readValue executable depth t) := by
  induction depth generalizing t with
  | zero =>
    rcases readValue_cases executable 0 t with rfl | rfl | hscalar
    · exact (keeps_expect .bracketR).bind fun _ => .pure _
    · exact (keeps_upTo fun l => (keeps_nameOf l.token).inside).bind fun _ => .pure _
    · exact hscalar ▸ keeps_readScalar executable t
  | succ depth ih =>
    rcases readValue_cases executable (depth + 1) t with rfl | rfl | hscalar
    · exact (keeps_upTo fun l => (ih l.token).inside).bind fun _ => .pure _
    · refine (keeps_upTo fun l => Keeps.inside ?_).bind fun _ => .pure _
      refine (keeps_nameOf l.token).bind fun n => (keeps_accept hmore .colon).bind fun valued => ?_
      split
      · exact keeps_nextToken.bind fun t => (ih t).bind fun _ => .pure _
      · exact .pure none
    · exact hscalar ▸ keeps_readScalar executable t

/-- A name with a value behind a colon, if there is one. -/
theorem keeps_readArguments (executable : Bool) (depth : Nat) :
    Keeps more (readArguments executable depth) := by
  refine keeps_optionalBlock hmore _ _ fun t => Keeps.inside ?_
  refine (keeps_nameOf t).bind fun n => (keeps_accept hmore .colon).bind fun valued => ?_
  split
  · exact keeps_nextToken.bind fun t => (keeps_readValue hmore _ _ t).bind fun _ => .pure _
  · exact .pure _

theorem keeps_readDirectives (executable : Bool) (depth : Nat) :
    Keeps more (readDirectives executable depth) := by
  refine keeps_manyAfter hmore .atSign ?_
  exact keeps_readName.bind fun n => (keeps_readArguments hmore _ _).bind fun _ => .pure n

/-! ## Type system definitions -/

theorem keeps_readDefault (depth : Nat) : Keeps more (readDefault depth) := by
  refine (keeps_accept hmore .equals).bind fun valued => ?_
  split
  · exact keeps_nextToken.bind fun t => (keeps_readValue hmore false depth t).map some
  · exact .pure none

theorem keeps_readInputValue (depth : Nat) (t : Token) : Keeps more (readInputValue depth t) := by
  refine (keeps_described t).bind fun t => (keeps_nameOf t).bind fun n => ?_
  refine (keeps_expect .colon).bind fun _ => (keeps_readType hmore depth).bind fun type => ?_
  refine (keeps_readDefault hmore depth).bind fun default? => ?_
  exact (keeps_readDirectives hmore false depth).bind fun _ => .pure _

theorem keeps_readInputValues (depth : Nat) (opening closing : Punctuator) :
    Keeps more (readInputValues depth opening closing) :=
  keeps_optionalBlock hmore opening closing fun t => (keeps_readInputValue hmore depth t).inside

theorem keeps_readField (depth : Nat) (t : Token) : Keeps more (readField depth t) := by
  refine (keeps_described t).bind fun t => (keeps_nameOf t).bind fun n => ?_
  refine (keeps_readInputValues hmore depth _ _).bind fun arguments => ?_
  refine (keeps_expect .colon).bind fun _ => (keeps_readType hmore depth).bind fun type => ?_
  exact (keeps_readDirectives hmore false depth).bind fun _ => .pure _

theorem keeps_readFields (depth : Nat) : Keeps more (readFields depth) :=
  keeps_optionalBlock hmore _ _ fun t => (keeps_readField hmore depth t).inside

theorem keeps_readInterfaces : Keeps more readInterfaces := by
  refine (keeps_acceptName hmore (.inl rfl)).bind fun present => ?_
  split
  · exact keeps_readSeparated hmore .amp keeps_readName
  · exact .pure []

theorem keeps_readMembers : Keeps more readMembers := by
  refine (keeps_accept hmore .equals).bind fun present => ?_
  split
  · exact keeps_readSeparated hmore .pipe keeps_readName
  · exact .pure []

theorem keeps_readEnumValue (depth : Nat) (t : Token) : Keeps more (readEnumValue depth t) := by
  refine (keeps_described t).bind fun t => (keeps_nameOf t).bind fun n => ?_
  refine (keeps_guard _).bind fun _ => ?_
  exact (keeps_readDirectives hmore false depth).bind fun _ => .pure n

theorem keeps_readEnumValues (depth : Nat) : Keeps more (readEnumValues depth) :=
  keeps_optionalBlock hmore _ _ fun t => (keeps_readEnumValue hmore depth t).inside

omit hmore in
/-- The name of the type is optional, but the closing brace is still to come. -/
theorem keepsInside_readRootOperation (t : Token) : KeepsInside more (readRootOperation t) := by
  refine (keeps_nameOf t).inside.bind fun n => (keeps_guard _).inside.bind fun _ => ?_
  exact (keeps_expect .colon).inside.bind fun _ =>
    keepsInside_acceptAnyName.bind fun _ => (Keeps.pure n).inside

omit hmore in
theorem keeps_readLocation : Keeps more readLocation :=
  keeps_readName.bind fun _ => keeps_ofOption _

theorem keeps_readTypeSystem (depth : Nat) (keyword : String) :
    Keeps more (readTypeSystem depth keyword) := by
  have hdirectives := keeps_readDirectives hmore false depth
  unfold readTypeSystem
  split
  · refine hdirectives.bind fun _ => ?_
    exact (keeps_optionalBlock hmore _ _ keepsInside_readRootOperation).bind fun _ => .pure _
  · exact keeps_readName.bind fun n => hdirectives.bind fun _ => .pure _
  · refine keeps_readName.bind fun n => (keeps_readInterfaces hmore).bind fun _ => ?_
    exact hdirectives.bind fun _ => (keeps_readFields hmore depth).bind fun _ => .pure _
  · refine keeps_readName.bind fun n => (keeps_readInterfaces hmore).bind fun _ => ?_
    exact hdirectives.bind fun _ => (keeps_readFields hmore depth).bind fun _ => .pure _
  · refine keeps_readName.bind fun n => hdirectives.bind fun _ => ?_
    exact (keeps_readMembers hmore).bind fun _ => .pure _
  · refine keeps_readName.bind fun n => hdirectives.bind fun _ => ?_
    exact (keeps_readEnumValues hmore depth).bind fun _ => .pure _
  · refine keeps_readName.bind fun n => hdirectives.bind fun _ => ?_
    exact (keeps_readInputValues hmore depth _ _).bind fun _ => .pure _
  · refine (keeps_expect .atSign).bind fun _ => keeps_readName.bind fun n => ?_
    refine (keeps_readInputValues hmore depth _ _).bind fun arguments => ?_
    refine (keeps_acceptName hmore (.inr (.inl rfl))).bind fun repeatable => ?_
    refine (keeps_expectName "on").bind fun _ => ?_
    exact (keeps_readSeparated hmore .pipe keeps_readLocation).bind fun _ => .pure _
  · exact keeps_fail

theorem keeps_readExtension (depth : Nat) (keyword : String) :
    Keeps more (readExtension depth keyword) := by
  have hdirectives := keeps_readDirectives hmore false depth
  have hend {d : Definition} (p : Bool) : Keeps more (do Reader.guard p; pure d) :=
    (keeps_guard p).bind fun _ => .pure d
  unfold readExtension
  split
  · refine hdirectives.bind fun directives => (keeps_accept hmore .braceL).bind fun opened => ?_
    dsimp only
    split
    · exact (keeps_upTo fun l => keepsInside_readRootOperation l.token).bind fun _ => hend _
    · exact (Keeps.pure []).bind fun _ => hend _
  · exact keeps_readName.bind fun _ => hdirectives.bind fun _ => hend _
  · refine keeps_readName.bind fun _ => (keeps_readInterfaces hmore).bind fun _ => ?_
    exact hdirectives.bind fun _ => (keeps_readFields hmore depth).bind fun _ => hend _
  · refine keeps_readName.bind fun _ => (keeps_readInterfaces hmore).bind fun _ => ?_
    exact hdirectives.bind fun _ => (keeps_readFields hmore depth).bind fun _ => hend _
  · refine keeps_readName.bind fun _ => hdirectives.bind fun _ => ?_
    exact (keeps_readMembers hmore).bind fun _ => hend _
  · refine keeps_readName.bind fun _ => hdirectives.bind fun _ => ?_
    exact (keeps_readEnumValues hmore depth).bind fun _ => hend _
  · refine keeps_readName.bind fun _ => hdirectives.bind fun _ => ?_
    exact (keeps_readInputValues hmore depth _ _).bind fun _ => hend _
  · exact keeps_fail

/-! ## Executable definitions -/

theorem keeps_readSelections (depth : Nat) : Keeps more (readSelections depth) := by
  induction depth with
  | zero => exact keeps_fail
  | succ depth ih =>
    have hdirectives := keeps_readDirectives hmore true depth
    have hblock : Keeps more (do
        let _ ← readDirectives true depth
        expect .braceL
        readSelections depth) :=
      hdirectives.bind fun _ => (keeps_expect .braceL).bind fun _ => ih
    have hfield : Keeps more (do
        let _ ← readArguments true depth
        let _ ← readDirectives true depth
        if ← accept .braceL then readSelections depth) := by
      refine (keeps_readArguments hmore true depth).bind fun _ => hdirectives.bind fun _ => ?_
      refine (keeps_accept hmore .braceL).bind fun opened => ?_
      split
      · exact ih
      · exact .pure ()
    refine (keeps_someUpTo fun l => ?_).bind fun _ => .pure ()
    dsimp only
    split
    · refine (keepsInside_acceptIf _).bind fun aliased => Keeps.inside ?_
      split
      · exact keeps_readName.bind fun _ => hfield
      · exact hfield
    · refine keepsInside_noComma.bind fun _ => ?_
      refine (keeps_acceptName hmore (.inr (.inr rfl))).inside.bind fun typed => ?_
      split
      · exact (keeps_readName.bind fun _ => hblock).inside
      · refine keepsInside_acceptAnyName.bind fun named => ?_
        split
        · exact (hdirectives.bind fun _ => .pure ()).inside
        · exact hblock.inside
    · exact keeps_fail.inside

theorem keeps_readVariable (depth : Nat) (t : Token) : Keeps more (readVariable depth t) := by
  refine (keeps_guard _).bind fun _ => keeps_readName.bind fun n => ?_
  refine (keeps_expect .colon).bind fun _ => (keeps_readType hmore depth).bind fun _ => ?_
  refine (keeps_readDefault hmore depth).bind fun _ => ?_
  exact (keeps_readDirectives hmore false depth).bind fun _ => .pure n

theorem keeps_readFragment (depth : Nat) (name : String) :
    Keeps more (readFragment depth name) := by
  refine (keeps_guard _).bind fun _ => (keeps_expectName "on").bind fun _ => ?_
  refine keeps_readName.bind fun _ => (keeps_readDirectives hmore true depth).bind fun _ => ?_
  refine (keeps_expect .braceL).bind fun _ => ?_
  exact (keeps_readSelections hmore depth).bind fun _ => .pure _

/-- The name of an operation is optional, but its selections are still to come. -/
theorem keeps_readOperation (depth : Nat) : Keeps more (readOperation depth) := by
  refine keepsInside_acceptAnyName.bind_keeps (fun named => ?_) fun named => ?_
  · refine (keeps_optionalBlock hmore _ _ fun t => (keeps_readVariable hmore depth t).inside).bind
      fun _ => (keeps_readDirectives hmore true depth).bind fun _ => ?_
    exact (keeps_expect .braceL).bind fun _ =>
      (keeps_readSelections hmore depth).bind fun _ => .pure _
  · have hvariables : (optionalBlock .parenL .parenR (readVariable depth)).run [] =
        some ([], []) := rfl
    have hdirectives : (readDirectives true depth).run [] = some ([], []) := run_many_nil
    rw [run_bind, hvariables]
    simp only [run_bind, hdirectives]
    rfl

/-! ## Definitions -/

theorem keeps_readDefinition (depth : Nat) (t : Token) : Keeps more (readDefinition depth t) := by
  unfold readDefinition
  split
  · refine keepsInside_noComma.bind_keeps (fun _ => keeps_readName.bind fun s => ?_) fun _ => rfl
    split
    · exact keeps_readFragment hmore depth s
    · exact keeps_readTypeSystem hmore depth s
  · exact (keeps_readSelections hmore depth).bind fun _ => .pure _
  · split
    · exact keepsInside_noComma.bind_keeps
        (fun _ => keeps_readName.bind fun s => keeps_readExtension hmore depth s) fun _ => rfl
    split
    · exact keeps_readName.bind fun s => keeps_readFragment hmore depth s
    split
    · exact keeps_readOperation hmore depth
    · exact keeps_readTypeSystem hmore depth _
  · exact keeps_fail

end Before

end Grammar

/-! ## Documents -/

/-- The definitions from the front to the end of a list of lexemes, of which there may be none. -/
def readDefinitions? (ls : List Lexeme) : Option (List Definition) :=
  (toEnd fun l => Grammar.readDefinition nestingLimit l.token).readAll? ls

theorem readDefinitions?_nil : readDefinitions? [] = some [] := readAll?_toEnd_nil

theorem readDefinitions?_cons (l : Lexeme) (ls : List Lexeme) :
    readDefinitions? (l :: ls) =
      ((Grammar.readDefinition nestingLimit l.token).run ls).bind fun p =>
        (readDefinitions? p.2).map (p.1 :: ·) :=
  readAll?_toEnd_cons

theorem ofLexemes?_eq_some_iff {ls : List Lexeme} {ds : List Definition} :
    ofLexemes? ls = some ds ↔ readDefinitions? ls = some ds ∧ ds ≠ [] := by
  change (readDefinitions? ls).bind (fun ds => if ds.isEmpty then none else some ds) = some ds ↔ _
  cases readDefinitions? ls with
  | none => simp
  | some es =>
    cases es with
    | nil => simp
    | cons e es =>
      simp only [Option.bind_some, List.isEmpty_cons, Bool.false_eq_true, if_false,
        Option.some.injEq, iff_self_and]
      rintro rfl
      exact List.cons_ne_nil e es

theorem ofLexemes?_of_run {l : Lexeme} {ls : List Lexeme} {d : Definition}
    (h : (Grammar.readDefinition nestingLimit l.token).run ls = some (d, [])) :
    ofLexemes? (l :: ls) = some [d] := by
  refine ofLexemes?_eq_some_iff.2 ⟨?_, List.cons_ne_nil d []⟩
  rw [readDefinitions?_cons, h, Option.bind_some, readDefinitions?_nil]
  rfl

/-- What comes before the first lexeme does not matter. -/
theorem readDefinitions?_ignoringFirstComma (ls : List Lexeme) :
    readDefinitions? (Lexeme.ignoringFirstComma ls) = readDefinitions? ls := by
  cases ls with
  | nil => rfl
  | cons l ls => rw [Lexeme.ignoringFirstComma, readDefinitions?_cons, readDefinitions?_cons]

/-- A list of lexemes starts as its first definition does. -/
theorem isStart_of_readDefinitions? {ls : List Lexeme} {ds : List Definition}
    (h : readDefinitions? ls = some ds) (hds : ds.head? ≠ some .operation) :
    ∀ l ∈ ls.head?, Grammar.IsStart l.token := by
  intro l hl
  cases ls with
  | nil => cases hl
  | cons l ls =>
    cases hl
    rw [readDefinitions?_cons, Option.bind_eq_some_iff] at h
    obtain ⟨⟨d, rest⟩, hrun, h⟩ := h
    obtain ⟨ds, -, rfl⟩ := Option.map_eq_some_iff.1 h
    exact Grammar.isStart_of_run hrun fun hd => hds (congrArg some hd)

theorem readDefinitions?_append {ls more : List Lexeme} {ds : List Definition}
    (hmore : ∀ l ∈ more.head?, Grammar.IsStart l.token) (h : readDefinitions? ls = some ds) :
    readDefinitions? (ls ++ more) = (readDefinitions? more).map (ds ++ ·) := by
  unfold readDefinitions? at h
  exact readAll?_toEnd_append (fun l => Grammar.keeps_readDefinition hmore _ l.token) h

/-- Two texts on lines of their own have the definitions of the first and then those of the second,
unless the second one starts with an operation, which needs no keyword. -/
theorem ofChars?_append {s t : List Char} {ds es : List Definition} (hs : ofChars? s = some ds)
    (ht : ofChars? t = some es) (hstart : es.head? ≠ some .operation) :
    ofChars? (s ++ '\n' :: t) = some (ds ++ es) := by
  obtain ⟨ls, hls, hds⟩ := Option.bind_eq_some_iff.1 hs
  obtain ⟨ms, hms, hes⟩ := Option.bind_eq_some_iff.1 ht
  obtain ⟨ms', happend, hsame⟩ := Lexeme.ofChars?_append hls hms
  obtain ⟨hds, hne⟩ := ofLexemes?_eq_some_iff.1 hds
  obtain ⟨hes, -⟩ := ofLexemes?_eq_some_iff.1 hes
  rw [← readDefinitions?_ignoringFirstComma, ← hsame, readDefinitions?_ignoringFirstComma] at hes
  have hmore := isStart_of_readDefinitions? hes hstart
  have hall : readDefinitions? (ls ++ ms') = some (ds ++ es) := by
    rw [readDefinitions?_append hmore hds, hes]
    rfl
  rw [ofChars?, happend]
  exact ofLexemes?_eq_some_iff.2 ⟨hall, by simp [hne]⟩

end SdlSchema.Sdl
