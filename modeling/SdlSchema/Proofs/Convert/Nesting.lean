import SdlSchema.Proofs.Convert.Append
import SdlSchema.Proofs.Convert.Arguments
import SdlSchema.Proofs.Sdl.Expressible
import SdlSchema.Proofs.Sdl.Nesting
import SdlSchema.Proofs.Sdl.ReadBack.Token

/-!
# Nesting in sources and in schemas

The only field of a source may have any type that is nested up to 500 levels
deep, and a type or a default value can be exchanged in a source for any other
one within this limit, and for no other (`convertSource_nesting`).  What is
within the limit is not cut short: the fragment of a field has an array for each
list of its type, and the arguments that are shown have the values of whole
defaults.
-/

namespace SdlSchema

/-! ## Levels of fragments -/

namespace Schema.Fragment

/-- The number of arrays around the innermost fragment. -/
def depth : Fragment → Nat
  | array _ element _ => element.depth + 1
  | primitive _ _ => 0
  | reference _ _ => 0

/-- The fragment inside all arrays. -/
def core : Fragment → Fragment
  | array _ element _ => element.core
  | primitive type required? => primitive type required?
  | reference target required? => reference target required?

@[simp] theorem depth_withRequired (b : Bool) (f : Fragment) :
    (f.withRequired b).depth = f.depth := by
  cases f <;> rfl

end Schema.Fragment

namespace Sdl

open Reader (AtOne)
open Grammar (IsPlain NoneOf listOf)

theorem depth_markNonNull (mode : Mode) (nonNull : Bool) (f : Schema.Fragment) :
    (mode.markNonNull nonNull f).depth = f.depth := by
  cases mode <;> cases nonNull <;> simp [Mode.markNonNull]

theorem depth_named (mode : Mode) (name : String) : (mode.named name).depth = 0 := by
  unfold Mode.named
  cases builtIn? name <;> cases mode <;> rfl

namespace TypeRef

theorem depth_toFragment (mode : Mode) (t : TypeRef) : (t.toFragment mode).depth = t.depth := by
  induction t with
  | named n nonNull => rw [toFragment, depth_markNonNull, depth_named, depth]
  | list t nonNull ih =>
    rw [toFragment, depth_markNonNull, Schema.Fragment.arrayOf, Schema.Fragment.depth, ih, depth]

theorem core_toFragment (mode : Mode) (t : TypeRef) :
    ∃ nonNull, (t.toFragment mode).core = mode.markNonNull nonNull (mode.named t.innermost) := by
  induction t with
  | named n nonNull =>
    refine ⟨nonNull, ?_⟩
    rw [toFragment, innermost]
    unfold Mode.named
    cases builtIn? n <;> cases mode <;> cases nonNull <;> rfl
  | list t nonNull ih =>
    obtain ⟨b, hcore⟩ := ih
    refine ⟨b, ?_⟩
    rw [innermost, ← hcore]
    cases mode <;> cases nonNull <;> rfl

end TypeRef

/-! ## Entries of fields -/

/-- The entry of a field has all levels of its type around the fragment of the name, and lists the
arguments that are shown with their whole defaults. -/
structure ShowsField (mode : Mode) (d : Definition) (f : Field) (e : Schema.PropertyEntry) :
    Prop where
  depth : e.fragment.depth = f.type.depth
  core : ∃ nonNull, e.fragment.core = mode.markNonNull nonNull (mode.named f.type.innermost)
  arguments : ShowsArguments mode d f e

theorem showsField_entry (mode : Mode) {d : Definition} {f : Field} (hf : f ∈ d.fields) :
    ShowsField mode d f (f.entry mode) where
  depth := by rw [f.fragment_entry, f.type.depth_toFragment]
  core := by
    rw [f.fragment_entry]
    exact f.type.core_toFragment mode
  arguments := showsArguments_entry mode hf

theorem Definition.exists_toSchema_of_mem_fields (mode : Mode) {d : Definition} {f : Field}
    (h : f ∈ d.fields) : ∃ title isInput,
      d.toSchema mode = .ok (.object (objectSchema mode title d.fields isInput)) := by
  cases d with
  | object | interface | input => exact ⟨_, _, rfl⟩
  | _ => cases h

/-- In the schema of the definitions, each stored field has an entry that shows it. -/
def ShowsFields (mode : Mode) (ds : List Definition) (doc : Schema.Document) : Prop :=
  ∀ {name fieldName : String} {d : Definition} {f : Field},
    lastNamed? name (nonDirectives ds) = some d → lastField? fieldName d.fields = some f →
      ∃ o e, doc.definitions.get? name = some (.object o) ∧
        o.properties.get? fieldName = some e ∧ ShowsField mode d f e

theorem showsFields_of_convert {mode : Mode} {ds : List Definition} {doc : Schema.Document}
    (h : convert mode ds = .ok doc) : ShowsFields mode ds doc := by
  intro name fieldName d f hd hf
  have hmem := mem_of_lastField? hf
  obtain ⟨title, isInput, hschema⟩ := Definition.exists_toSchema_of_mem_fields mode hmem
  refine ⟨_, f.entry mode, (get?_eq_some_iff h).2 ⟨d, hd, hschema⟩, ?_, showsField_entry mode hmem⟩
  rw [get?_properties, hf]
  rfl

/-! ## Exchanges in sources -/

/-- The number of levels of what is new. -/
def Change.depth : Change → Nat
  | type _ new => new.depth
  | default _ new => new.depth

/-- The second source is the first one but for a type behind a colon, where a list of a non-null
name stood, or for a constant behind an equals sign, where a numeral stood. -/
inductive Exchanged : Change → String → String → Prop
  | type {s s' : String} {pre old new post : List Lexeme} {mark : Lexeme} {name : String}
      {t : TypeRef} (hs : Lexeme.ofChars? s.toList = some (pre ++ mark :: (old ++ post)))
      (hs' : Lexeme.ofChars? s'.toList = some (pre ++ mark :: (new ++ post)))
      (hmark : mark.token = .punct .colon) (hold : old.map Lexeme.token = (listOf name).tokens)
      (hnew : new.map Lexeme.token = t.tokens)
      (hpost : post.head?.map Lexeme.token ≠ some (.punct .bang)) :
      Exchanged (.type (listOf name) t) s s'
  | default {s s' : String} {pre old new post : List Lexeme} {mark : Lexeme} {n : Decimal.Numeral}
      {c : Const} (hs : Lexeme.ofChars? s.toList = some (pre ++ mark :: (old ++ post)))
      (hs' : Lexeme.ofChars? s'.toList = some (pre ++ mark :: (new ++ post)))
      (hmark : mark.token = .punct .equals) (hold : old.map Lexeme.token = [.number n])
      (hnew : new.map Lexeme.token = c.tokens) (hc : c.IsConstant) :
      Exchanged (.default (.number n) c) s s'

section

variable {c : Change} {s s' : String} {ds : List Definition}

theorem Exchanged.exists_place (h : Exchanged c s s') : ∃ e pre,
    Grammar.IsPlace e (c.depth ≤ nestingLimit) c ∧
      Lexeme.ofChars? s.toList = some (pre ++ e.mark :: e.old) ∧
      Lexeme.ofChars? s'.toList = some (pre ++ e.mark :: e.new) := by
  cases h with
  | type hs hs' hmark hold hnew hpost =>
    refine ⟨_, _, Grammar.isPlace_type hmark hold hnew ?_, hs, hs'⟩
    rwa [NoneOf, List.forall_mem_singleton]
  | default hs hs' hmark hold hnew hc =>
    exact ⟨_, _, Grammar.isPlace_default hmark hold hnew hc, hs, hs'⟩

/-- Whether the second source has definitions depends on the levels only. -/
theorem Exchanged.ofText? (h : Exchanged c s s') (hds : Sdl.ofText? s = some ds)
    (hplain : ∀ d ∈ ds, IsPlain d) :
    (¬ c.depth ≤ nestingLimit ∧ Sdl.ofText? s' = none) ∨
      c.depth ≤ nestingLimit ∧ ∃ ds', AtOne (Definition.Changed c) ds ds' ∧
        Sdl.ofText? s' = some ds' := by
  obtain ⟨e, pre, he, hs, hs'⟩ := h.exists_place
  rw [Sdl.ofText?, ofChars?, hs, Option.bind_some] at hds
  rw [Sdl.ofText?, ofChars?, hs', Option.bind_some]
  exact ofLexemes?_exchange he hds hplain

/-! ## Changes and conversion -/

theorem isPlain_iff {d : Definition} : IsPlain d ↔ d.isDirective = true ∨ d.isType = true := by
  cases d <;> simp [IsPlain, Definition.isDirective, Definition.isType, Definition.typeName?]

theorem forall_isPlain_iff :
    (∀ d ∈ ds, IsPlain d) ↔ ∀ d ∈ nonDirectives ds, d.isType = true := by
  simp only [nonDirectives, List.mem_filter, isPlain_iff]
  constructor
  · rintro h d ⟨hd, hno⟩
    exact (h d hd).resolve_left (by simpa using hno)
  · intro h d hd
    cases hdirective : d.isDirective with
    | true => exact Or.inl rfl
    | false => exact Or.inr (h d ⟨hd, by simp [hdirective]⟩)

theorem Definition.Changed.isPlain {d d' : Definition} (h : Definition.Changed c d d') :
    IsPlain d' := by
  cases h <;> trivial

theorem isPlain_of_changed {ds' : List Definition} (h : AtOne (Definition.Changed c) ds ds')
    (hds : ∀ d ∈ ds, IsPlain d) : ∀ d ∈ ds', IsPlain d := by
  induction h with
  | head hd ds => exact List.forall_mem_cons.2 ⟨hd.isPlain, (List.forall_mem_cons.1 hds).2⟩
  | tail d _ ih =>
    obtain ⟨hd, hmore⟩ := List.forall_mem_cons.1 hds
    exact List.forall_mem_cons.2 ⟨hd, ih hmore⟩

end

/-! ## Definitions of a single field -/

/-- The definition has a single field, of any type; all else is within the limits of the grammar. -/
inductive Definition.HasOnlyField (name : String) : Field → Definition → Prop
  | object (f : Field) (h : ∀ v ∈ f.arguments, v.IsWritable) :
      HasOnlyField name f (.object name [f])
  | interface (f : Field) (h : ∀ v ∈ f.arguments, v.IsWritable) :
      HasOnlyField name f (.interface name [f])
  | input (v : InputValue) (h : ∀ c ∈ v.default?, c.IsConstant ∧ c.depth ≤ nestingLimit) :
      HasOnlyField name v.toField (.input name [v])

namespace Definition.HasOnlyField

variable {name : String} {f : Field} {d : Definition}

theorem isWritable (h : HasOnlyField name f d) (hdepth : f.type.depth ≤ nestingLimit) :
    d.IsWritable := by
  cases h with
  | object f h => exact List.forall_mem_singleton.2 ⟨hdepth, h⟩
  | interface f h => exact List.forall_mem_singleton.2 ⟨hdepth, h⟩
  | input v h => exact List.forall_mem_singleton.2 ⟨hdepth, h⟩

theorem fields_eq (h : HasOnlyField name f d) : d.fields = [f] := by
  cases h <;> rfl

theorem typeName? (h : HasOnlyField name f d) : d.typeName? = some name := by
  cases h <;> rfl

theorem isPlain (h : HasOnlyField name f d) : IsPlain d := by
  cases h <;> trivial

/-- With another type of the field, the tokens differ by those of the types. -/
theorem exists_tokens (h : HasOnlyField name f d) (t : TypeRef) :
    ∃ d' f' ts us, HasOnlyField name f' d' ∧ f'.type = t ∧ us.head? ≠ some (.punct .bang) ∧
      d.tokens false = ts ++ .punct .colon :: (f.type.tokens ++ us) ∧
      d'.tokens false = ts ++ .punct .colon :: (t.tokens ++ us) := by
  cases h with
  | object f h =>
    refine ⟨_, _, .name "type" :: .name name :: .punct .braceL :: .name f.name ::
      blockTokens .parenL .parenR (f.arguments.map InputValue.tokens), [.punct .braceR],
      .object ⟨f.name, t, f.arguments⟩ h, rfl, by simp, ?_, ?_⟩
    all_goals simp [tokens, Field.tokens, blockTokens]
  | interface f h =>
    refine ⟨_, _, .name "interface" :: .name name :: .punct .braceL :: .name f.name ::
      blockTokens .parenL .parenR (f.arguments.map InputValue.tokens), [.punct .braceR],
      .interface ⟨f.name, t, f.arguments⟩ h, rfl, by simp, ?_, ?_⟩
    all_goals simp [tokens, Field.tokens, blockTokens]
  | input v h =>
    refine ⟨_, _, [.name "input", .name name, .punct .braceL, .name v.name],
      defaultTokens v.default? ++ [.punct .braceR], .input ⟨v.name, t, v.default?⟩ h, rfl, ?_,
      ?_, ?_⟩
    · cases v.default? <;> simp [defaultTokens]
    all_goals simp [tokens, InputValue.tokens, InputValue.toField, blockTokens]

/-- A source with a type that is nested too deeply cannot be read: with a list of a name in its
place it could, so it is the type that fails. -/
theorem ofText?_eq_none (h : HasOnlyField name f d) {source : String}
    (hsource : Spells (d.tokens false) source.toList) (hdeep : nestingLimit < f.type.depth) :
    Sdl.ofText? source = none := by
  obtain ⟨d', f', ts, us, hd', htype, hend, htokens, htokens'⟩ := h.exists_tokens (listOf "Int")
  obtain ⟨ls, hls, hmap⟩ := hsource.ofChars?
  rw [htokens] at hmap
  obtain ⟨pre, _, rfl, rfl, hmarked⟩ := List.map_eq_append_iff.1 hmap
  obtain ⟨mark, _, rfl, hmark, htyped⟩ := List.map_eq_cons_iff.1 hmarked
  obtain ⟨new, post, rfl, hnew, rfl⟩ := List.map_eq_append_iff.1 htyped
  have hpost : NoneOf [.bang] (post.head?.map Lexeme.token) := by
    rwa [NoneOf, List.forall_mem_singleton, ← List.head?_map]
  let old : List Lexeme := (listOf "Int").tokens.map fun t => ⟨t, false⟩
  have hold : old.map Lexeme.token = (listOf "Int").tokens := rfl
  have hwritable : d'.IsWritable := hd'.isWritable (by rw [htype]; decide)
  have hread : readDefinitions? (pre ++ mark :: (old ++ post)) = some [d'] := by
    refine (Written.cons false .nil).readDefinitions? (List.forall_mem_singleton.2 hwritable) ?_
    rw [htokens', List.append_nil, List.map_append, List.map_cons, List.map_append, hmark, hold]
  have hlexemes := ofLexemes?_eq_some_iff.2 ⟨hread, List.cons_ne_nil d' []⟩
  obtain ⟨-, hnone⟩ | ⟨hdepth, -⟩ := ofLexemes?_exchange
    (Grammar.isPlace_type hmark hold hnew hpost) hlexemes (List.forall_mem_singleton.2 hd'.isPlain)
  · rw [Sdl.ofText?, ofChars?, hls]
    exact hnone
  · exact absurd hdepth (Nat.not_le_of_lt hdeep)

theorem ofText?_eq_some (h : HasOnlyField name f d) {source : String}
    (hsource : Spells (d.tokens false) source.toList) (hdepth : f.type.depth ≤ nestingLimit) :
    Sdl.ofText? source = some [d] := by
  have hwritten : Written [d] (d.tokens false) := by
    simpa using Written.cons false (d := d) .nil
  exact hwritten.ofChars? (List.cons_ne_nil d [])
    (List.forall_mem_singleton.2 (h.isWritable hdepth)) hsource

theorem exists_convert (h : HasOnlyField name f d) (mode : Mode) :
    ∃ doc o e, convert mode [d] = .ok doc ∧ doc.definitions.get? name = some (.object o) ∧
      o.properties.get? f.name = some e ∧ ShowsField mode d f e := by
  have htypes : nonDirectives [d] = [d] := by cases h <;> rfl
  have htype : d.isType = true := by rw [isType, h.typeName?, Option.isSome_some]
  have hconvert : convert mode [d] = .ok _ :=
    convert_eq_ok_iff_isType.2 ⟨by rwa [htypes, List.forall_mem_singleton], rfl⟩
  have hd : lastNamed? name (nonDirectives [d]) = some d := by
    simp [htypes, lastNamed?, h.typeName?]
  have hf : lastField? f.name d.fields = some f := by simp [h.fields_eq, lastField?]
  obtain ⟨o, e, ho, he, hshows⟩ := showsFields_of_convert hconvert hd hf
  exact ⟨_, o, e, hconvert, ho, he, hshows⟩

end Definition.HasOnlyField

theorem TypeRef.exists_of_depth (n : Nat) : ∃ t : TypeRef, t.depth = n ∧ IsName t.innermost := by
  induction n with
  | zero => exact ⟨.named "Int" true, rfl, by decide⟩
  | succ n ih =>
    obtain ⟨t, hdepth, hname⟩ := ih
    exact ⟨.list t false, congrArg Nat.succ hdepth, hname⟩

/-- A type of any depth has a source with a single field of it. -/
theorem exists_onlyField (n : Nat) : ∃ (f : Field) (d : Definition) (source : String),
    f.type.depth = n ∧ d.HasOnlyField "T" f ∧ Spells (d.tokens false) source.toList := by
  obtain ⟨t, hdepth, hname⟩ := TypeRef.exists_of_depth n
  have hnames : ∀ n ∈ (Definition.object "T" [⟨"f", t, []⟩]).names, IsName n := by
    simpa [Definition.names, Field.names, hname] using ⟨by decide, by decide⟩
  obtain ⟨s, hs, -⟩ := exists_spells (Definition.areNames_tokens false hnames)
  refine ⟨⟨"f", t, []⟩, _, String.ofList s, hdepth, .object _ (List.forall_mem_nil _), ?_⟩
  rwa [String.toList_ofList]

end Sdl

open Sdl (Change Definition Exchanged ShowsField ShowsFields Spells)

/-- A source of a single field, whose type may be any, has a schema exactly if the type is nested
up to 500 levels deep, and cannot be parsed if it is deeper.  So does any source that has a schema
once a type or a default in it is exchanged; nothing else of its definitions is changed then.  In
either mode each stored field shows all levels of its type and, where its arguments are shown, the
values of their whole defaults. -/
theorem convertSource_nesting :
    (∀ {name f d} {source : String}, Definition.HasOnlyField name f d →
      Spells (d.tokens false) source.toList → ∀ mode,
        (500 < f.type.depth → convertSource mode source = .error .unparsable) ∧
        (f.type.depth ≤ 500 → ∃ doc o e, convertSource mode source = .ok doc ∧
          doc.definitions.get? name = some (.object o) ∧ o.properties.get? f.name = some e ∧
          ShowsField mode d f e)) ∧
    (∀ {c s s' mode doc}, Exchanged c s s' → convertSource mode s = .ok doc →
      (500 < c.depth → ∀ mode, convertSource mode s' = .error .unparsable) ∧
      (c.depth ≤ 500 → ∃ ds ds', Sdl.ofText? s = some ds ∧ Sdl.ofText? s' = some ds' ∧
        Reader.AtOne (Definition.Changed c) ds ds' ∧
        ∀ mode, ∃ doc, convertSource mode s' = .ok doc ∧ ShowsFields mode ds' doc)) := by
  refine ⟨fun {name f d source} h hsource mode => ?_, fun {c s s' mode doc} h hs => ?_⟩
  · refine ⟨fun hdeep => ?_, fun hdepth => ?_⟩
    · rw [convertSource, convertSourceReported, h.ofText?_eq_none hsource hdeep]
    · obtain ⟨doc, o, e, hdoc, hentry⟩ := h.exists_convert mode
      have htext := h.ofText?_eq_some hsource hdepth
      exact ⟨doc, o, e, convertSource_eq_ok_iff.2 ⟨[d], htext, hdoc⟩, hentry⟩
  · obtain ⟨ds, hds, hconvert⟩ := convertSource_eq_ok_iff.1 hs
    have hplain := Sdl.forall_isPlain_iff.2 (Sdl.convert_eq_ok_iff_isType.1 hconvert).1
    obtain ⟨hdeep, hnone⟩ | ⟨hdepth, ds', hchanged, hds'⟩ := h.ofText? hds hplain
    · refine ⟨fun _ mode => ?_, fun hdepth => absurd hdepth hdeep⟩
      rw [convertSource, convertSourceReported, hnone]
    · refine ⟨fun hdeep => absurd hdepth (Nat.not_le_of_lt hdeep), fun _ => ?_⟩
      refine ⟨ds, ds', hds, hds', hchanged, fun mode => ?_⟩
      -- an exchange makes no definition of another kind
      have htypes := Sdl.forall_isPlain_iff.1 (Sdl.isPlain_of_changed hchanged hplain)
      have hconvert' : Sdl.convert mode ds' = .ok _ :=
        Sdl.convert_eq_ok_iff_isType.2 ⟨htypes, rfl⟩
      exact ⟨_, convertSource_eq_ok_iff.2 ⟨ds', hds', hconvert'⟩,
        Sdl.showsFields_of_convert hconvert'⟩

theorem convertSource_nesting_of_limit :
    (∃ (f : Sdl.Field) (d : Definition) (s : String), f.type.depth = 500 ∧ d.HasOnlyField "T" f ∧
      Spells (d.tokens false) s.toList ∧ ∃ doc, convertSource .strict s = .ok doc) ∧
    (∃ (f : Sdl.Field) (d : Definition) (s : String), f.type.depth = 501 ∧ d.HasOnlyField "T" f ∧
      Spells (d.tokens false) s.toList ∧ convertSource .strict s = .error .unparsable) ∧
    ∃ doc, convertSource .relaxed "input T{f:I=[[]]}" = .ok doc := by
  refine ⟨?_, ?_, ?_⟩
  · obtain ⟨f, d, s, hdepth, hd, hs⟩ := Sdl.exists_onlyField 500
    obtain ⟨doc, -, -, hdoc, -⟩ := (convertSource_nesting.1 hd hs .strict).2 (Nat.le_of_eq hdepth)
    exact ⟨f, d, s, hdepth, hd, hs, doc, hdoc⟩
  · obtain ⟨f, d, s, hdepth, hd, hs⟩ := Sdl.exists_onlyField 501
    have hdeep : 500 < f.type.depth := by omega
    exact ⟨f, d, s, hdepth, hd, hs, (convertSource_nesting.1 hd hs .strict).1 hdeep⟩
  · let n : Decimal.Numeral := ⟨false, 1, [], none⟩
    let d : Definition := .input "T" [⟨"f", .named "I" false, some (.number n)⟩]
    let pre : List Sdl.Lexeme := [⟨.name "input", false⟩, ⟨.name "T", false⟩,
      ⟨.punct .braceL, false⟩, ⟨.name "f", false⟩, ⟨.punct .colon, false⟩, ⟨.name "I", false⟩]
    have hs : Sdl.Lexeme.ofChars? "input T{f:I=1}".toList = some [⟨.name "input", false⟩,
        ⟨.name "T", false⟩, ⟨.punct .braceL, false⟩, ⟨.name "f", false⟩, ⟨.punct .colon, false⟩,
        ⟨.name "I", false⟩, ⟨.punct .equals, false⟩, ⟨.number n, false⟩,
        ⟨.punct .braceR, false⟩] := by cbv
    have hs' : Sdl.Lexeme.ofChars? "input T{f:I=[[]]}".toList = some [⟨.name "input", false⟩,
        ⟨.name "T", false⟩, ⟨.punct .braceL, false⟩, ⟨.name "f", false⟩, ⟨.punct .colon, false⟩,
        ⟨.name "I", false⟩, ⟨.punct .equals, false⟩, ⟨.punct .bracketL, false⟩,
        ⟨.punct .bracketL, false⟩, ⟨.punct .bracketR, false⟩, ⟨.punct .bracketR, false⟩,
        ⟨.punct .braceR, false⟩] := by cbv
    have hexchanged : Exchanged (.default (.number n) (.list [.list []])) "input T{f:I=1}"
        "input T{f:I=[[]]}" :=
      @Exchanged.default _ _ pre [⟨.number n, false⟩] [⟨.punct .bracketL, false⟩,
        ⟨.punct .bracketL, false⟩, ⟨.punct .bracketR, false⟩, ⟨.punct .bracketR, false⟩]
        [⟨.punct .braceR, false⟩] ⟨.punct .equals, false⟩ n _ hs hs' rfl rfl rfl ⟨trivial, trivial⟩
    have hd : d.IsWritable := by
      refine List.forall_mem_singleton.2 ⟨Nat.zero_le _, ?_⟩
      rintro _ ⟨⟩
      exact ⟨trivial, Nat.zero_le _⟩
    have htext : Sdl.ofText? "input T{f:I=1}" = some [d] := by
      rw [Sdl.ofText?, Sdl.ofChars?, hs]
      exact Sdl.ofLexemes?_eq_some_iff.2 ⟨(Sdl.Written.cons false .nil).readDefinitions?
        (List.forall_mem_singleton.2 hd) rfl, List.cons_ne_nil d []⟩
    have hsource : convertSource .strict "input T{f:I=1}" = .ok _ :=
      convertSource_eq_ok_iff.2 ⟨[d], htext, rfl⟩
    have hdepth : (Change.default (.number n) (.list [.list []])).depth ≤ 500 := by decide
    obtain ⟨_, _, -, -, -, hdoc⟩ := (convertSource_nesting.2 hexchanged hsource).2 hdepth
    obtain ⟨doc, hdoc, -⟩ := hdoc .relaxed
    exact ⟨doc, hdoc⟩

end SdlSchema
