import SdlSchema.Proofs.Reader.Exchange
import SdlSchema.Proofs.Sdl.Append.Document

/-!
# Definitions and an exchange in their text

Behind a colon a type can be exchanged for another one, and behind an equals
sign a default value.  Where neither of the two is, the readers of the grammar
stop before the mark or had failed already; so of the definitions of a document
one is changed, in one place (`readDefinitions?_exchange`), or all are lost if
what is new cannot be read.
-/

namespace SdlSchema.Sdl

open Reader

/-! ## Changes -/

/-- What is exchanged for what. -/
inductive Change where
  | type (old new : TypeRef)
  | default (old new : Const)

/-- The type or the default is changed. -/
inductive InputValue.Changed (c : Change) : InputValue → InputValue → Prop
  | type (name : String) {t t' : TypeRef} (h : c = .type t t') (default? : Option Const) :
      Changed c ⟨name, t, default?⟩ ⟨name, t', default?⟩
  | default (name : String) (type : TypeRef) {v v' : Const} (h : c = .default v v') :
      Changed c ⟨name, type, some v⟩ ⟨name, type, some v'⟩

/-- The type or one of the arguments is changed. -/
inductive Field.Changed (c : Change) : Field → Field → Prop
  | type (name : String) {t t' : TypeRef} (h : c = .type t t') (arguments : List InputValue) :
      Changed c ⟨name, t, arguments⟩ ⟨name, t', arguments⟩
  | argument (name : String) (type : TypeRef) {arguments arguments' : List InputValue}
      (h : AtOne (InputValue.Changed c) arguments arguments') :
      Changed c ⟨name, type, arguments⟩ ⟨name, type, arguments'⟩

/-- One field or argument is changed. -/
inductive Definition.Changed (c : Change) : Definition → Definition → Prop
  | object (name : String) {fields fields' : List Field}
      (h : AtOne (Field.Changed c) fields fields') :
      Changed c (.object name fields) (.object name fields')
  | interface (name : String) {fields fields' : List Field}
      (h : AtOne (Field.Changed c) fields fields') :
      Changed c (.interface name fields) (.interface name fields')
  | input (name : String) {fields fields' : List InputValue}
      (h : AtOne (InputValue.Changed c) fields fields') :
      Changed c (.input name fields) (.input name fields')
  | directive (name : String) {arguments arguments' : List InputValue}
      (h : AtOne (InputValue.Changed c) arguments arguments') (repeatable : Bool)
      (locations : List Location) :
      Changed c (.directive ⟨name, arguments, repeatable, locations⟩)
        (.directive ⟨name, arguments', repeatable, locations⟩)

namespace Grammar

variable {α : Type} {e : Exchange Lexeme} {ok : Prop} {R : α → α → Prop}

/-- The punctuators behind which something can be exchanged. -/
def isMark : Punctuator → Bool
  | .colon => true
  | .equals => true
  | _ => false

/-- What stands behind the mark at first is no value, and no list of names. -/
structure IsMark (e : Exchange Lexeme) : Prop where
  token : ∃ p, e.mark.token = .punct p ∧ isMark p = true
  value : e.mark.token = .punct .colon →
    ∀ depth, (Grammar.next >>= readValue false depth).run e.old = none
  names : e.mark.token = .punct .equals → (readSeparated .pipe readName).run e.old = none

section

variable (he : IsMark e)
include he

/-! ## Small parts -/

theorem not_mark (p : Punctuator) (hp : isMark p = false) :
    decide (e.mark.token = .punct p) = false := by
  obtain ⟨q, htoken, hq⟩ := he.token
  refine decide_eq_false fun h => ?_
  rw [htoken] at h
  cases h
  rw [hp] at hq
  cases hq

theorem stops_accept (p : Punctuator) (hp : isMark p = false) : Stops e (accept p) :=
  stops_acceptIf (not_mark he p hp)

theorem stops_acceptName (s : String) : Stops e (acceptName s) := by
  obtain ⟨q, htoken, -⟩ := he.token
  refine stops_acceptIf (decide_eq_false ?_)
  rw [htoken]
  nofun

theorem stops_expect (p : Punctuator) (hp : isMark p = false) : Stops e (expect p) :=
  (stops_accept he p hp).bind stops_guard

theorem stops_expectName (s : String) : Stops e (expectName s) :=
  (stops_acceptName he s).bind stops_guard

omit he in
theorem stops_noComma : Stops e noComma := stops_peek?.bind fun _ => stops_guard _

omit he in
theorem stops_nameOf (t : Token) : Stops e (nameOf t) := by
  cases t with
  | name s => exact .pure s
  | punct | number | string => exact stops_fail

/-- The mark is no name. -/
theorem nameOf_mark : nameOf e.mark.token = Reader.fail := by
  obtain ⟨q, htoken, -⟩ := he.token
  rw [htoken]
  rfl

omit he in
theorem crosses_nextToken {f : Token → TokenReader α} (hmark : (f e.mark.token).run e.old = none)
    (hf : ∀ t, Crosses e ok R (f t)) : Crosses e ok R (Grammar.next >>= f) := by
  have hnext : Crosses e ok R (Reader.next >>= fun l => f l.token) :=
    crosses_next_bind hmark fun l => hf l.token
  have heq : Grammar.next >>= f = Reader.next >>= fun l => f l.token := bind_assoc _ _ _
  rwa [heq]

omit he in
/-- If the mark is the punctuator that has to come, then what comes behind it decides. -/
theorem crosses_expect_bind {p : Punctuator} {f : Unit → TokenReader α}
    (hmark : e.mark.token = .punct p → ∀ a rest, (f ()).run e.old = some (a, rest) →
      Outcome ok R a rest ((f ()).run e.new))
    (hf : Crosses e ok R (f ())) : Crosses e ok R (expect p >>= f) := by
  have heq : expect p >>= f = accept p >>= fun b => Reader.guard b >>= f := bind_assoc _ _ _
  rw [heq]
  refine crosses_acceptIf_bind (fun h => ?_) fun b => (stops_guard b).bind fun _ => hf
  exact hmark (of_decide_eq_true h)

theorem stops_readName : Stops e readName :=
  crosses_nextToken (by rw [nameOf_mark he]; rfl) stops_nameOf

/-- A name after a description, if there is one. -/
theorem crosses_named {f : String → TokenReader α} (hf : ∀ n, Crosses e ok R (f n)) (t : Token) :
    Crosses e ok R (described t >>= fun t => nameOf t >>= f) := by
  have hname (t : Token) : Crosses e ok R (nameOf t >>= f) := (stops_nameOf t).bind hf
  cases t with
  | string s => exact crosses_nextToken (by rw [nameOf_mark he]; rfl) hname
  | punct | number | name => exact (Stops.pure _).bind hname

/-- Nothing that has a name starts with the mark. -/
theorem run_named_mark (f : String → TokenReader α) (ls : List Lexeme) :
    (described e.mark.token >>= fun t => nameOf t >>= f).run ls = none := by
  obtain ⟨q, htoken, -⟩ := he.token
  rw [htoken]
  rfl

theorem run_nameOf_mark (f : String → TokenReader α) (ls : List Lexeme) :
    (nameOf e.mark.token >>= f).run ls = none := by
  rw [nameOf_mark he]
  rfl

theorem stops_readItems {closing : Punctuator} {item : Token → TokenReader α}
    (hclosing : isMark closing = false) (hmark : (item e.mark.token).run e.old = none)
    (hitem : ∀ t, Stops e (item t)) : Stops e (readItems closing item) :=
  stops_upTo (not_mark he closing hclosing) hmark fun l => hitem l.token

theorem crosses_optionalBlock {opening closing : Punctuator} {item : Token → TokenReader α}
    (hopening : isMark opening = false) (hclosing : isMark closing = false)
    (hmark : (item e.mark.token).run e.old = none) (hitem : ∀ t, Crosses e ok R (item t)) :
    Crosses e ok (AtOne R) (optionalBlock opening closing item) := by
  refine (stops_accept he opening hopening).bind fun opened => ?_
  split
  · exact crosses_someUpTo (not_mark he closing hclosing) hmark fun l => hitem l.token
  · exact .pure []

theorem stops_optionalBlock {opening closing : Punctuator} {item : Token → TokenReader α}
    (hopening : isMark opening = false) (hclosing : isMark closing = false)
    (hmark : (item e.mark.token).run e.old = none) (hitem : ∀ t, Stops e (item t)) :
    Stops e (optionalBlock opening closing item) :=
  (crosses_optionalBlock he hopening hclosing hmark hitem).mono fun _ _ => AtOne.false

theorem stops_manyAfter {p : Punctuator} (hp : isMark p = false) {item : TokenReader α}
    (hitem : Stops e item) : Stops e (Reader.many (fun l => l.token = .punct p) fun _ => item) := by
  refine stops_many (fun hmark => ?_) fun _ => hitem
  rw [not_mark he p hp] at hmark
  cases hmark

theorem stops_readSeparated {separator : Punctuator} (hseparator : isMark separator = false)
    {item : TokenReader α} (hitem : Stops e item) : Stops e (readSeparated separator item) := by
  refine (stops_accept he separator hseparator).bind fun _ => hitem.bind fun first => ?_
  exact (stops_manyAfter he hseparator hitem).bind fun more => .pure _

/-! ## Types and values -/

theorem stops_readNamed : Stops e (do
    let n ← readName
    pure (TypeRef.named n (← accept .bang))) :=
  (stops_readName he).bind fun _ => (stops_accept he .bang rfl).bind fun _ => .pure _

theorem stops_readType (depth : Nat) : Stops e (readType depth) := by
  induction depth with
  | zero => exact stops_readNamed he
  | succ depth ih =>
    refine (stops_accept he .bracketL rfl).bind fun isList => ?_
    split
    · refine ih.bind fun t => (stops_expect he .bracketR rfl).bind fun _ => ?_
      exact (stops_accept he .bang rfl).bind fun _ => .pure _
    · exact stops_readNamed he

omit he in
theorem stops_readScalar (t : Token) : Stops e (readScalar false t) := by
  cases t with
  | number n => exact .pure _
  | string s => exact .pure _
  | name s => exact .pure _
  | punct p => cases p <;> exact stops_fail

/-- The mark is no value. -/
theorem run_readValue_mark (depth : Nat) (ls : List Lexeme) :
    (readValue false depth e.mark.token).run ls = none := by
  obtain ⟨q, htoken, hq⟩ := he.token
  rw [htoken]
  cases q with
  | colon | equals => cases depth <;> rfl
  | _ => cases hq

/-- A value behind a colon, or none: there is no value behind the mark. -/
theorem crosses_valued {depth : Nat} {f : Bool → TokenReader α} {g : Const → TokenReader α}
    (hvalue : ∀ t, Stops e (readValue false depth t)) (hg : ∀ v, Crosses e ok R (g v))
    (hnone : Crosses e ok R (f false))
    (hsome : f true = Grammar.next >>= fun t => readValue false depth t >>= g) :
    Crosses e ok R (accept .colon >>= f) := by
  have hnext : Grammar.next >>= (fun t => readValue false depth t >>= g) =
      Grammar.next >>= readValue false depth >>= g := (bind_assoc _ _ _).symm
  refine crosses_acceptIf_bind (fun hmark ls rest hrun => ?_) fun valued => ?_
  · rw [hsome, hnext, run_bind, he.value (of_decide_eq_true hmark)] at hrun
    cases hrun
  · cases valued with
    | false => exact hnone
    | true =>
      rw [hsome]
      refine crosses_nextToken ?_ fun t => (hvalue t).bind hg
      rw [run_bind, run_readValue_mark he]

theorem stops_readValue (depth : Nat) (t : Token) : Stops e (readValue false depth t) := by
  induction depth generalizing t with
  | zero =>
    rcases readValue_cases false 0 t with rfl | rfl | hscalar
    · exact (stops_expect he .bracketR rfl).bind fun _ => .pure _
    · have hfields : Stops e (readItems .braceR nameOf) :=
        stops_readItems he rfl (by rw [nameOf_mark he]; rfl) stops_nameOf
      exact hfields.bind fun _ => .pure _
    · exact hscalar ▸ stops_readScalar t
  | succ depth ih =>
    rcases readValue_cases false (depth + 1) t with rfl | rfl | hscalar
    · exact (stops_readItems he rfl (run_readValue_mark he depth _) ih).bind fun _ => .pure _
    · refine (stops_readItems he rfl (run_nameOf_mark he _ _) fun t => ?_).bind fun _ => .pure _
      exact (stops_nameOf t).bind fun n =>
        crosses_valued he ih (fun v => .pure (some (n, v))) (.pure none) rfl
    · exact hscalar ▸ stops_readScalar t

/-- If the mark is an equals sign in front of a default, then what comes behind it decides. -/
theorem crosses_readDefault {depth : Nat} {R : Option Const → Option Const → Prop}
    (hmark : e.mark.token = .punct .equals → ∀ a rest,
      (do some <$> readValue false depth (← Grammar.next)).run e.old = some (a, rest) →
        Outcome ok R a rest ((do some <$> readValue false depth (← Grammar.next)).run e.new)) :
    Crosses e ok R (readDefault depth) := by
  refine crosses_acceptIf_bind (fun h => hmark (of_decide_eq_true h)) fun valued => ?_
  split
  · refine crosses_nextToken ?_ fun t => (stops_readValue he depth t).bind fun v => .pure (some v)
    rw [run_map, run_readValue_mark he]
    rfl
  · exact .pure none

theorem stops_readArguments (depth : Nat) : Stops e (readArguments false depth) := by
  refine stops_optionalBlock he rfl rfl (run_nameOf_mark he _ _) fun t => ?_
  exact (stops_nameOf t).bind fun n => crosses_valued he (stops_readValue he depth)
    (fun v => .pure (n, some v)) (.pure (n, none)) rfl

theorem stops_readDirectives (depth : Nat) : Stops e (readDirectives false depth) := by
  refine stops_manyAfter he rfl ?_
  exact (stops_readName he).bind fun n => (stops_readArguments he depth).bind fun _ => .pure n

/-! ## Small parts of definitions -/

theorem stops_readInterfaces : Stops e readInterfaces := by
  refine (stops_acceptName he "implements").bind fun present => ?_
  split
  · exact stops_readSeparated he rfl (stops_readName he)
  · exact .pure []

/-- Behind an equals sign that belongs to a union there are names, unlike behind the mark. -/
theorem stops_readMembers : Stops e readMembers := by
  refine crosses_acceptIf_bind (fun hmark ls rest hrun => ?_) fun present => ?_
  · rw [if_pos rfl, he.names (of_decide_eq_true hmark)] at hrun
    cases hrun
  · split
    · exact stops_readSeparated he rfl (stops_readName he)
    · exact .pure []

theorem stops_readEnumValue (depth : Nat) (t : Token) : Stops e (readEnumValue depth t) := by
  refine crosses_named he (fun n => ?_) t
  exact (stops_guard _).bind fun _ => (stops_readDirectives he depth).bind fun _ => .pure n

theorem stops_readEnumValues (depth : Nat) : Stops e (readEnumValues depth) :=
  stops_optionalBlock he rfl rfl (run_named_mark he _ _) (stops_readEnumValue he depth)

theorem stops_readLocation : Stops e readLocation :=
  (stops_readName he).bind fun _ => stops_ofOption _

end

/-! ## Definitions -/

/-- In the place of the mark stands the old type or default of the change, and then the new one if
that can be read. -/
structure IsPlace (e : Exchange Lexeme) (ok : Prop) (c : Change) : Prop extends IsMark e where
  type : Crosses e ok (fun t t' => c = .type t t')
    (expect .colon >>= fun _ => readType nestingLimit)
  default? : Crosses e ok (fun v? v'? => ∃ v v', c = .default v v' ∧ v? = some v ∧ v'? = some v')
    (readDefault nestingLimit)

section

variable {c : Change} (he : IsPlace e ok c)
include he

/-- A type behind a colon, and what is read after it. -/
theorem crosses_typed {f : TypeRef → TokenReader α} (hf : ∀ t, Crosses e ok R (f t))
    (hparallel : ∀ t t', c = .type t t' → Parallel R (f t) (f t')) :
    Crosses e ok R (expect .colon >>= fun _ => readType nestingLimit >>= f) := by
  rw [← bind_assoc]
  exact he.type.bind hf hparallel

theorem crosses_readInputValue (t : Token) :
    Crosses e ok (InputValue.Changed c) (readInputValue nestingLimit t) := by
  have hdirectives := stops_readDirectives he.toIsMark nestingLimit
  refine crosses_named he.toIsMark (fun n => crosses_typed he (fun type => ?_) ?_) t
  · refine he.default?.bind (fun default? => hdirectives.bind fun _ => .pure _) ?_
    rintro _ _ ⟨v, v', hc, rfl, rfl⟩
    exact .bind _ fun _ => .pure (.default n type hc)
  · exact fun type type' hc => .bind _ fun default? => .bind _ fun _ => .pure (.type n hc default?)

theorem crosses_readInputValues {opening closing : Punctuator} (hopening : isMark opening = false)
    (hclosing : isMark closing = false) :
    Crosses e ok (AtOne (InputValue.Changed c)) (readInputValues nestingLimit opening closing) :=
  crosses_optionalBlock he.toIsMark hopening hclosing (run_named_mark he.toIsMark _ _)
    (crosses_readInputValue he)

theorem crosses_readField (t : Token) :
    Crosses e ok (Field.Changed c) (readField nestingLimit t) := by
  have hdirectives := stops_readDirectives he.toIsMark nestingLimit
  refine crosses_named he.toIsMark (fun n => ?_) t
  refine (crosses_readInputValues he rfl rfl).bind (fun arguments => ?_) ?_
  · refine crosses_typed he (fun type => hdirectives.bind fun _ => .pure _) ?_
    exact fun type type' hc => .bind _ fun _ => .pure (.type n hc arguments)
  · exact fun arguments arguments' h =>
      .bind _ fun _ => .bind _ fun type => .bind _ fun _ => .pure (.argument n type h)

theorem crosses_readFields :
    Crosses e ok (AtOne (Field.Changed c)) (readFields nestingLimit) :=
  crosses_optionalBlock he.toIsMark rfl rfl (run_named_mark he.toIsMark _ _) (crosses_readField he)

/-- A definition of the schema has marks of its own, but no types and defaults. -/
theorem crosses_readTypeSystem {keyword : String} (hschema : keyword ≠ "schema") :
    Crosses e ok (Definition.Changed c) (readTypeSystem nestingLimit keyword) := by
  have hname := stops_readName he.toIsMark
  have hinterfaces := stops_readInterfaces he.toIsMark
  have hdirectives := stops_readDirectives he.toIsMark nestingLimit
  unfold readTypeSystem
  split
  · exact absurd rfl hschema
  · exact hname.bind fun n => hdirectives.bind fun _ => .pure _
  · refine hname.bind fun n => hinterfaces.bind fun _ => hdirectives.bind fun _ => ?_
    exact (crosses_readFields he).bind (fun _ => .pure _) fun fields fields' h =>
      .pure (.object n h)
  · refine hname.bind fun n => hinterfaces.bind fun _ => hdirectives.bind fun _ => ?_
    exact (crosses_readFields he).bind (fun _ => .pure _) fun fields fields' h =>
      .pure (.interface n h)
  · refine hname.bind fun n => hdirectives.bind fun _ => ?_
    exact (stops_readMembers he.toIsMark).bind fun _ => .pure _
  · refine hname.bind fun n => hdirectives.bind fun _ => ?_
    exact (stops_readEnumValues he.toIsMark nestingLimit).bind fun _ => .pure _
  · refine hname.bind fun n => hdirectives.bind fun _ => ?_
    exact (crosses_readInputValues he rfl rfl).bind (fun _ => .pure _) fun fields fields' h =>
      .pure (.input n h)
  · have hlocations : Stops e (readSeparated .pipe readLocation) :=
      stops_readSeparated he.toIsMark rfl (stops_readLocation he.toIsMark)
    refine (stops_expect he.toIsMark .atSign rfl).bind fun _ => hname.bind fun n => ?_
    refine (crosses_readInputValues he rfl rfl).bind (fun arguments => ?_) ?_
    · refine (stops_acceptName he.toIsMark "repeatable").bind fun repeatable => ?_
      refine (stops_expectName he.toIsMark "on").bind fun _ => ?_
      exact hlocations.bind fun _ => .pure _
    · exact fun arguments arguments' h => .bind _ fun repeatable => .bind _ fun _ =>
        .bind _ fun locations => .pure (.directive n h repeatable locations)
  · exact stops_fail.crosses

end

/-! ### Definitions of types and directives

Only these have places for types and defaults that are of interest here. -/

/-- The definition is one of a type or a directive. -/
def IsPlain : Definition → Prop
  | .schema => False
  | .schemaExtension => False
  | .typeExtension _ => False
  | .operation => False
  | .fragment => False
  | _ => True

/-- No definition that the reader takes off is plain. -/
def NeverPlain (x : TokenReader Definition) : Prop :=
  ∀ ls d rest, x.run ls = some (d, rest) → ¬ IsPlain d

theorem NeverPlain.pure {d : Definition} (h : ¬ IsPlain d) : NeverPlain (pure d) := by
  intro ls d' rest hrun
  cases hrun
  exact h

theorem NeverPlain.bind {x : TokenReader α} {f : α → TokenReader Definition}
    (h : ∀ a, NeverPlain (f a)) : NeverPlain (x >>= f) := by
  intro ls d rest hrun
  obtain ⟨a, mid, -, hd⟩ := run_bind_eq_some.1 hrun
  exact h a mid d rest hd

theorem neverPlain_readExtension (depth : Nat) (keyword : String) :
    NeverPlain (readExtension depth keyword) := by
  have hend {p : Bool} {d : Definition} (h : ¬ IsPlain d) :
      NeverPlain (do Reader.guard p; pure d) := .bind fun _ => .pure h
  unfold readExtension
  split
  · refine .bind fun _ => .bind fun opened => ?_
    dsimp only
    split
    · exact .bind fun _ => hend id
    · exact .bind fun _ => hend id
  · exact .bind fun _ => .bind fun _ => hend id
  · exact .bind fun _ => .bind fun _ => .bind fun _ => .bind fun _ => hend id
  · exact .bind fun _ => .bind fun _ => .bind fun _ => .bind fun _ => hend id
  · exact .bind fun _ => .bind fun _ => .bind fun _ => hend id
  · exact .bind fun _ => .bind fun _ => .bind fun _ => hend id
  · exact .bind fun _ => .bind fun _ => .bind fun _ => hend id
  · exact nofun

theorem neverPlain_readFragment (depth : Nat) (name : String) :
    NeverPlain (readFragment depth name) :=
  .bind fun _ => .bind fun _ => .bind fun _ => .bind fun _ => .bind fun _ => .bind fun _ => .pure id

theorem neverPlain_readOperation (depth : Nat) : NeverPlain (readOperation depth) :=
  .bind fun _ => .bind fun _ => .bind fun _ => .bind fun _ => .bind fun _ => .pure id

theorem neverPlain_schema (depth : Nat) : NeverPlain (readTypeSystem depth "schema") :=
  .bind fun _ => .bind fun _ => .pure id

/-- What comes before the mark leaves a list with the mark in it. -/
theorem exists_of_stops_bind {β : Type} {x : TokenReader α} {f : α → TokenReader β} (hx : Stops e x)
    {ls rest : List Lexeme} {b : β} (h : (x >>= f).run (ls ++ e.mark :: e.old) = some (b, rest)) :
    ∃ a ls', (f a).run (ls' ++ e.mark :: e.old) = some (b, rest) ∧
      (x >>= f).run (ls ++ e.mark :: e.new) = (f a).run (ls' ++ e.mark :: e.new) := by
  obtain ⟨a, mid, ha, hb⟩ := run_bind_eq_some.1 h
  obtain ⟨ls', rfl, hrun⟩ := hx.exists_rest ha
  exact ⟨a, ls', hb, by rw [run_bind, hrun]⟩

variable {c : Change}

/-- What a definition becomes that is plain. -/
theorem readDefinition_exchange (he : IsPlace e ok c) {t : Token} {ls rest : List Lexeme}
    {d : Definition} (hd : IsPlain d)
    (h : (readDefinition nestingLimit t).run (ls ++ e.mark :: e.old) = some (d, rest)) :
    (∃ ls', rest = ls' ++ e.mark :: e.old ∧
        (readDefinition nestingLimit t).run (ls ++ e.mark :: e.new) =
          some (d, ls' ++ e.mark :: e.new)) ∨
      Outcome ok (Definition.Changed c) d rest
        ((readDefinition nestingLimit t).run (ls ++ e.mark :: e.new)) := by
  have htypeSystem {keyword : String} {ls : List Lexeme}
      (h : (readTypeSystem nestingLimit keyword).run (ls ++ e.mark :: e.old) = some (d, rest)) :=
    crosses_readTypeSystem he (fun hschema => neverPlain_schema _ _ _ _ (hschema ▸ h) hd)
      ls d rest h
  unfold readDefinition at h ⊢
  split at h
  · obtain ⟨-, ls, h, hnew⟩ := exists_of_stops_bind stops_noComma h
    rw [hnew]
    obtain ⟨s, ls, h, hnew⟩ := exists_of_stops_bind (stops_readName he.toIsMark) h
    rw [hnew]
    split at h
    · exact absurd hd (neverPlain_readFragment _ _ _ _ _ h)
    · next hfragment =>
      rw [if_neg hfragment]
      exact htypeSystem h
  · have hselections : NeverPlain (do readSelections nestingLimit; pure .operation) :=
      .bind fun _ => .pure id
    exact absurd hd (hselections _ _ _ h)
  · next keyword =>
    have hextension : NeverPlain (do noComma; readExtension nestingLimit (← readName)) :=
      .bind fun _ => .bind fun s => neverPlain_readExtension nestingLimit s
    have hfragment : NeverPlain (do readFragment nestingLimit (← readName)) :=
      .bind fun s => neverPlain_readFragment nestingLimit s
    by_cases hextend : keyword = "extend"
    · rw [if_pos hextend] at h
      exact absurd hd (hextension _ _ _ h)
    rw [if_neg hextend] at h ⊢
    by_cases hkeyword : keyword = "fragment"
    · rw [if_pos hkeyword] at h
      exact absurd hd (hfragment _ _ _ h)
    rw [if_neg hkeyword] at h ⊢
    by_cases hoperation : isOperation keyword = true
    · rw [if_pos hoperation] at h
      exact absurd hd (neverPlain_readOperation nestingLimit _ _ _ h)
    rw [if_neg hoperation] at h ⊢
    exact htypeSystem h
  · cases h

/-- No definition starts with the mark. -/
theorem run_readDefinition_mark (he : IsMark e) (depth : Nat) (ls : List Lexeme) :
    (readDefinition depth e.mark.token).run ls = none := by
  obtain ⟨q, htoken, hq⟩ := he.token
  rw [htoken]
  cases q with
  | colon | equals => rfl
  | _ => cases hq

end Grammar

/-! ## Documents -/

/-- Of plain definitions one is changed, in one place, or all are lost. -/
theorem readDefinitions?_exchange {e : Exchange Lexeme} {ok : Prop} {c : Change}
    (he : Grammar.IsPlace e ok c) {ls : List Lexeme} {ds : List Definition}
    (h : readDefinitions? (ls ++ e.mark :: e.old) = some ds)
    (hds : ∀ d ∈ ds, Grammar.IsPlain d) :
    (¬ ok ∧ readDefinitions? (ls ++ e.mark :: e.new) = none) ∨
      ok ∧ ∃ ds', AtOne (Definition.Changed c) ds ds' ∧
        readDefinitions? (ls ++ e.mark :: e.new) = some ds' := by
  induction hn : ls.length using Nat.strongRecOn generalizing ls ds with
  | ind n ih =>
    cases ls with
    | nil =>
      rw [List.nil_append, readDefinitions?_cons,
        Grammar.run_readDefinition_mark he.toIsMark] at h
      cases h
    | cons l ls =>
      rw [List.cons_append, readDefinitions?_cons] at h ⊢
      obtain ⟨⟨d, rest⟩, hd, h⟩ := Option.bind_eq_some_iff.1 h
      obtain ⟨ds, hmore, rfl⟩ := Option.map_eq_some_iff.1 h
      rw [List.forall_mem_cons] at hds
      obtain ⟨ls', rfl, hrun⟩ | hout := Grammar.readDefinition_exchange he hds.1 hd
      · rw [hrun, Option.bind_some]
        have hlength := (Grammar.readDefinition nestingLimit l.token).length_le hd
        have hshorter : ls'.length < n := by
          simp only [List.length_append, List.length_cons] at hlength hn
          omega
        obtain ⟨hok, hlost⟩ | ⟨hok, ds', hchanged, hmore'⟩ := ih _ hshorter hmore hds.2 rfl
        · exact Or.inl ⟨hok, by rw [hlost]; rfl⟩
        · exact Or.inr ⟨hok, _, .tail d hchanged, by rw [hmore']; rfl⟩
      · generalize (Grammar.readDefinition nestingLimit l.token).run (ls ++ e.mark :: e.new) = o
          at hout
        cases hout with
        | fails hok => exact Or.inl ⟨hok, rfl⟩
        | reads hok hchanged =>
          refine Or.inr ⟨hok, _, .head hchanged ds, ?_⟩
          rw [Option.bind_some, hmore]
          rfl

theorem ofLexemes?_exchange {e : Exchange Lexeme} {ok : Prop} {c : Change}
    (he : Grammar.IsPlace e ok c) {ls : List Lexeme} {ds : List Definition}
    (h : ofLexemes? (ls ++ e.mark :: e.old) = some ds) (hds : ∀ d ∈ ds, Grammar.IsPlain d) :
    (¬ ok ∧ ofLexemes? (ls ++ e.mark :: e.new) = none) ∨
      ok ∧ ∃ ds', AtOne (Definition.Changed c) ds ds' ∧
        ofLexemes? (ls ++ e.mark :: e.new) = some ds' := by
  rw [ofLexemes?_eq_some_iff] at h
  obtain ⟨hok, hnone⟩ | ⟨hok, ds', hchanged, hsome⟩ := readDefinitions?_exchange he h.1 hds
  · refine Or.inl ⟨hok, Option.eq_none_iff_forall_ne_some.2 fun ds' hds' => ?_⟩
    rw [ofLexemes?_eq_some_iff, hnone] at hds'
    cases hds'.1
  · refine Or.inr ⟨hok, ds', hchanged, ofLexemes?_eq_some_iff.2 ⟨hsome, ?_⟩⟩
    cases hchanged <;> exact List.cons_ne_nil _ _

end SdlSchema.Sdl
