import SdlSchema.Proofs.Convert.RepeatedFields
import SdlSchema.Proofs.Json.Members
import SdlSchema.Proofs.Schema.Text
import SdlSchema.Proofs.Table.Merge

/-!
# Where arguments are shown

A stored field shows its arguments, all of them and in order, in relaxed mode
and unless its type is a reference: beside an `allOf` nothing is kept
(`isSome_arguments?_iff`).  Input fields take no arguments, and their defaults
are not looked at.  What is not shown does not count, so that documents which
differ in nothing else have one schema (`convert_of_sameShown`).  Replaced
fields and definitions show nothing: only the last ones of their names are
compared.
-/

namespace SdlSchema

/-! ## Entries and their texts -/

namespace Schema

open Json (get?)

theorem get?_append {key : String} {ms : List (String × Json)} (ns : List (String × Json))
    (h : key ∉ ms.map Prod.fst) : get? key (.object (ms ++ ns)) = get? key (.object ns) := by
  induction ms with
  | nil => rfl
  | cons m ms ih =>
    rw [List.map_cons, List.mem_cons, not_or] at h
    rw [List.cons_append, Json.get?_object_cons, if_neg (Ne.symm h.1), ih h.2]

theorem get?_optionalMember {α : Type} (key : String) (f : α → Json) (v? : Option α) :
    get? key (.object (optionalMember key f v?)) = v?.map f := by
  cases v? with
  | none => rfl
  | some v => exact Json.get?_object_self (key, f v) []

theorem Argument.get?_defaultValue (a : Argument) :
    get? "defaultValue" a.toJson = a.default?.map CanonicalJson.json := by
  have htitle : "title" ≠ "defaultValue" := by decide
  have htype : "type" ≠ "defaultValue" := by decide
  rw [toJson_eq, Json.get?_object_cons, if_neg htitle, Json.get?_object_cons, if_neg htype,
    get?_optionalMember]

namespace PropertyEntry

/-- The arguments that an entry lists. -/
def arguments? : PropertyEntry → Option (List Argument)
  | field p => p.arguments?
  | allOf _ => none

theorem get?_arguments (e : PropertyEntry) :
    get? "arguments" e.toJson = e.arguments?.map fun as => .array (as.map Argument.toJson) := by
  cases e with
  | allOf a => rfl
  | field p =>
    have hkeys : "arguments" ∉ p.schema.members.map Prod.fst := fun h =>
      absurd (p.schema.keys_members.subset h) (by decide)
    have htitle : "title" ≠ "arguments" := by decide
    rw [toJson, Property.toJson_eq, get?_append _ hkeys, Json.get?_object_cons, if_neg htitle,
      get?_optionalMember]
    rfl

end PropertyEntry

end Schema

namespace Sdl

/-! ## What a field shows -/

/-- An argument as it was declared: with its name, the fragment of its type, and the value of its
default, if it has one. -/
structure InputValue.IsShownAs (v : InputValue) (a : Schema.Argument) : Prop where
  title : a.title = v.name
  type : a.type = v.type.toFragment .relaxed
  default? : a.default? = v.default?.map Const.toJson
  defaultValue : Json.get? "defaultValue" a.toJson = v.default?.map fun c => c.toJson.json

theorem InputValue.isShownAs_toArgument (v : InputValue) : v.IsShownAs (v.toArgument .relaxed) where
  title := rfl
  type := rfl
  default? := rfl
  defaultValue := by
    rw [Schema.Argument.get?_defaultValue, toArgument, Option.map_map]
    rfl

theorem TypeRef.not_isReference_iff {t : TypeRef} :
    ¬ t.IsReference ↔
      (∃ element nonNull, t = list element nonNull) ∨
        ∃ name ∈ builtInNames, ∃ nonNull, t = named name nonNull := by
  cases t with
  | named n nonNull => simp [IsReference]
  | list element nonNull => simp [IsReference]

namespace Field

/-- The arguments of the field are shown, if it has any. -/
def Shows (mode : Mode) (f : Field) : Prop := mode = .relaxed ∧ ¬ f.type.IsReference

theorem arguments?_entry_of_shows {mode : Mode} {f : Field} (h : f.Shows mode) :
    (f.entry mode).arguments? = f.arguments? mode := by
  have hinline : (f.type.toFragment mode).isReference = false := by
    rw [← Bool.not_eq_true, f.type.isReference_toFragment]
    exact h.2
  simp only [entry, toProperty, schema, hinline, Bool.false_eq_true, if_false]
  rfl

theorem arguments?_entry_of_not_shows {mode : Mode} {f : Field} (h : ¬ f.Shows mode) :
    (f.entry mode).arguments? = none := by
  by_cases href : (f.type.toFragment mode).isReference = true
  · simp only [entry, toProperty, schema, href, if_true]
    rfl
  · cases mode with
    | strict =>
      simp only [entry, toProperty, schema, href]
      rfl
    | relaxed =>
      rw [f.type.isReference_toFragment] at href
      exact absurd ⟨rfl, href⟩ h

theorem arguments?_relaxed (f : Field) :
    f.arguments? .relaxed = if f.arguments = [] then none
      else some (f.arguments.map (InputValue.toArgument .relaxed)) := by
  cases h : f.arguments <;> simp [arguments?, h]

theorem isSome_arguments?_iff {mode : Mode} {f : Field} :
    (f.entry mode).arguments?.isSome = true ↔ f.Shows mode ∧ f.arguments ≠ [] := by
  by_cases h : f.Shows mode
  · obtain ⟨rfl, -⟩ := id h
    rw [arguments?_entry_of_shows h, arguments?_relaxed]
    by_cases hnil : f.arguments = [] <;> simp [hnil, h]
  · simp [arguments?_entry_of_not_shows h, h]

theorem isShownAs_of_mem {mode : Mode} {f : Field} {as : List Schema.Argument}
    (h : (f.entry mode).arguments? = some as) :
    List.Forall₂ InputValue.IsShownAs f.arguments as := by
  have hsome : (f.entry mode).arguments?.isSome = true := by rw [h]; rfl
  obtain ⟨hshows, hne⟩ := isSome_arguments?_iff.1 hsome
  obtain ⟨rfl, -⟩ := id hshows
  rw [arguments?_entry_of_shows hshows, arguments?_relaxed, if_neg hne] at h
  cases h
  rw [List.forall₂_map_right_iff, List.forall₂_same]
  intro v _
  exact v.isShownAs_toArgument

end Field

/-- The entry of a field of the definition lists the arguments of the field, where they are shown,
and lists nothing else. -/
structure ShowsArguments (mode : Mode) (d : Definition) (f : Field) (e : Schema.PropertyEntry) :
    Prop where
  isSome_iff : e.arguments?.isSome = true ↔
    mode = .relaxed ∧ (∀ title values, d ≠ .input title values) ∧ f.arguments ≠ [] ∧
      ((∃ element nonNull, f.type = .list element nonNull) ∨
        ∃ name ∈ builtInNames, ∃ nonNull, f.type = .named name nonNull)
  each : ∀ as ∈ e.arguments?, List.Forall₂ InputValue.IsShownAs f.arguments as
  written : Json.get? "arguments" e.toJson =
    e.arguments?.map fun as => .array (as.map Schema.Argument.toJson)

/-- An input field takes no arguments. -/
theorem Definition.arguments_eq_nil {title : String} {values : List InputValue} {f : Field}
    (h : f ∈ (input title values).fields) : f.arguments = [] := by
  obtain ⟨v, -, rfl⟩ := List.mem_map.1 h
  rfl

theorem showsArguments_entry (mode : Mode) {d : Definition} {f : Field} (hf : f ∈ d.fields) :
    ShowsArguments mode d f (f.entry mode) where
  isSome_iff := by
    rw [Field.isSome_arguments?_iff, ← TypeRef.not_isReference_iff]
    constructor
    · rintro ⟨⟨hmode, htype⟩, hne⟩
      refine ⟨hmode, ?_, hne, htype⟩
      rintro title values rfl
      exact hne (Definition.arguments_eq_nil hf)
    · rintro ⟨hmode, -, hne, htype⟩
      exact ⟨⟨hmode, htype⟩, hne⟩
  each := fun _ has => Field.isShownAs_of_mem has
  written := Schema.PropertyEntry.get?_arguments _

/-! ## What is left without arguments and defaults -/

/-- Two options with one image under a map have one image under all that this image determines. -/
theorem bind_congr_of_map {α β γ : Type} {f : α → β} {g : α → Option γ} {o o' : Option α}
    (h : o.map f = o'.map f)
    (hg : ∀ {a a'}, o = some a → o' = some a' → f a = f a' → g a = g a') :
    o.bind g = o'.bind g := by
  cases o with
  | none =>
    rw [Option.map_none, eq_comm, Option.map_eq_none_iff] at h
    rw [h]
  | some a =>
    rw [Option.map_some, eq_comm, Option.map_eq_some_iff] at h
    obtain ⟨a', rfl, heq⟩ := h
    exact hg rfl rfl heq.symm

namespace Field

def bare (f : Field) : Field := ⟨f.name, f.type, []⟩

/-- Two fields that differ in arguments that are not shown have the same entry. -/
theorem entry_congr {mode : Mode} {f f' : Field} (hbare : f.bare = f'.bare)
    (hshown : f.Shows mode → f.arguments = f'.arguments) : f.entry mode = f'.entry mode := by
  obtain ⟨name, type, arguments⟩ := f
  obtain ⟨name', type', arguments'⟩ := f'
  cases hbare
  by_cases h : Field.Shows mode ⟨name, type, arguments⟩
  · cases hshown h
    rfl
  · cases mode with
    | strict => rfl
    | relaxed =>
      have href : (type.toFragment .relaxed).isReference = true := by
        rw [type.isReference_toFragment]
        by_contra hnot
        exact h ⟨rfl, hnot⟩
      simp only [entry, toProperty, schema, href, if_true]
      rfl

end Field

theorem mem_of_lastField? {name : String} {fields : List Field} {f : Field}
    (h : lastField? name fields = some f) : f ∈ fields :=
  List.mem_reverse.1 (List.mem_of_find?_eq_some h)

theorem name_of_lastField? {name : String} {fields : List Field} {f : Field}
    (h : lastField? name fields = some f) : f.name = name := by
  simpa using List.find?_some h

theorem lastField?_map_bare (name : String) (fields : List Field) :
    lastField? name (fields.map Field.bare) = (lastField? name fields).map Field.bare := by
  rw [lastField?, lastField?, ← List.map_reverse, List.find?_map]
  rfl

section

variable {mode : Mode} {title : String} {fields fields' : List Field} {isInput : Bool}

theorem get?_properties (name : String) :
    (objectSchema mode title fields isInput).properties.get? name =
      (lastField? name fields).map (Field.entry mode) := by
  unfold objectSchema lastField?
  rw [Table.get?_ofList, ← List.map_reverse, List.find?_map, Option.map_map]
  rfl

theorem objectSchema_congr (hbare : fields.map Field.bare = fields'.map Field.bare)
    (hshown : ∀ {name f f'}, lastField? name fields = some f → lastField? name fields' = some f' →
      f.Shows mode → f.arguments = f'.arguments) :
    objectSchema mode title fields isInput = objectSchema mode title fields' isInput := by
  have hnames : fields.map Field.name = fields'.map Field.name := by
    simpa [Function.comp_def, Field.bare] using congrArg (List.map Field.name) hbare
  have hrequired (fields : List Field) :
      (objectSchema mode title fields isInput).required =
        ((fields.map Field.bare).filter fun f => f.type.isNonNull).map Field.name := by
    rw [List.filter_map, List.map_map]
    rfl
  have hproperties : (objectSchema mode title fields isInput).properties =
      (objectSchema mode title fields' isInput).properties := by
    refine Table.eq_of_keys_of_get? ?_ fun name => ?_
    · rw [keys_objectSchema, keys_objectSchema, hnames]
    · have hlast := congrArg (lastField? name) hbare
      rw [lastField?_map_bare, lastField?_map_bare] at hlast
      rw [get?_properties, get?_properties, Option.map_eq_bind, Option.map_eq_bind]
      refine bind_congr_of_map hlast fun hf hf' heq => ?_
      exact congrArg some (Field.entry_congr heq (hshown hf hf'))
  have hsameRequired : (objectSchema mode title fields isInput).required =
      (objectSchema mode title fields' isInput).required := by
    rw [hrequired, hrequired, hbare]
  -- an object schema is made of these two and of what does not depend on the fields
  exact congrArg₂ (fun properties required => Schema.ObjectDefinition.mk title .object properties
    required (if isInput && !mode.isStrict then some true else none)) hproperties hsameRequired

end

namespace Definition

/-- The definition without the arguments of its fields and the defaults of its input fields. -/
def bare : Definition → Definition
  | object name fields => object name (fields.map Field.bare)
  | interface name fields => interface name (fields.map Field.bare)
  | input name values => input name (values.map fun v => ⟨v.name, v.type, none⟩)
  | d => d

@[simp] theorem isDirective_bare (d : Definition) : d.bare.isDirective = d.isDirective := by
  cases d <;> rfl

@[simp] theorem typeName?_bare (d : Definition) : d.bare.typeName? = d.typeName? := by
  cases d <;> rfl

/-- Two definitions that differ in arguments and defaults that are not shown have the same
schema. -/
theorem toSchema_congr {mode : Mode} {d d' : Definition} (hbare : d.bare = d'.bare)
    (hshown : ∀ {name f f'}, lastField? name d.fields = some f →
      lastField? name d'.fields = some f' → f.Shows mode → f.arguments = f'.arguments) :
    d.toSchema mode = d'.toSchema mode := by
  cases d with
  | object name fields =>
    cases d' with
    | object name' fields' =>
      injection hbare with hname hfields
      subst hname
      rw [toSchema, toSchema, objectSchema_congr hfields hshown]
    | _ => cases hbare
  | interface name fields =>
    cases d' with
    | interface name' fields' =>
      injection hbare with hname hfields
      subst hname
      rw [toSchema, toSchema, objectSchema_congr hfields hshown]
    | _ => cases hbare
  | input name values =>
    cases d' with
    | input name' values' =>
      injection hbare with hname hvalues
      subst hname
      have hfields : values.map InputValue.toField = values'.map InputValue.toField := by
        have hmap := congrArg (List.map InputValue.toField) hvalues
        rw [List.map_map, List.map_map] at hmap
        exact hmap
      rw [toSchema, toSchema, hfields]
    | _ => cases hbare
  | _ =>
    cases d' <;> cases hbare
    rfl

end Definition

/-! ## Documents -/

theorem nonDirectives_map_bare (ds : List Definition) :
    nonDirectives (ds.map Definition.bare) = (nonDirectives ds).map Definition.bare := by
  rw [nonDirectives, nonDirectives, List.filter_map]
  simp [Function.comp_def]

theorem lastNamed?_map_bare (name : String) (ds : List Definition) :
    lastNamed? name (ds.map Definition.bare) = (lastNamed? name ds).map Definition.bare := by
  rw [lastNamed?, lastNamed?, ← List.map_reverse, List.find?_map]
  simp only [Function.comp_def, Definition.typeName?_bare]

/-- Two documents differ at most in arguments that are not shown and in defaults of input fields:
the last fields of a name in the last definitions of a name have the same arguments, if these are
shown. -/
structure SameShown (mode : Mode) (ds ds' : List Definition) : Prop where
  bare : ds.map Definition.bare = ds'.map Definition.bare
  shown : ∀ {name fieldName d d' f f'}, lastNamed? name (nonDirectives ds) = some d →
    lastNamed? name (nonDirectives ds') = some d' → lastField? fieldName d.fields = some f →
      lastField? fieldName d'.fields = some f' → f.Shows mode → f.arguments = f'.arguments

/-- A document has a schema if all its definitions are of types or directives. -/
theorem convert_eq_ok_iff_isType {mode : Mode} {ds : List Definition} {doc : Schema.Document} :
    convert mode ds = .ok doc ↔ (∀ d ∈ nonDirectives ds, d.isType = true) ∧
      doc = ⟨mode.schemaUri,
        Table.ofList (titled ((nonDirectives ds).filterMap (Definition.toSchema? mode)))⟩ := by
  rw [convert_eq, mapM_toSchema]
  cases hf : (nonDirectives ds).find? fun d => !d.isType with
  | some d =>
    have hd : d.isType = false := by simpa using List.find?_some hf
    have hmem : d ∈ nonDirectives ds := List.mem_of_find?_eq_some hf
    constructor
    · intro h
      cases h
    · rintro ⟨h, -⟩
      exact absurd (h d hmem) (by simp [hd])
  | none =>
    have hall : ∀ d ∈ nonDirectives ds, d.isType = true := by simpa using hf
    constructor
    · intro h
      cases h
      exact ⟨hall, rfl⟩
    · rintro ⟨-, rfl⟩
      rfl

theorem convert_of_sameShown {mode : Mode} {ds ds' : List Definition} {doc : Schema.Document}
    (hsame : SameShown mode ds ds') (h : convert mode ds = .ok doc) :
    convert mode ds' = .ok doc := by
  have hbare : (nonDirectives ds).map Definition.bare =
      (nonDirectives ds').map Definition.bare := by
    rw [← nonDirectives_map_bare, ← nonDirectives_map_bare, hsame.bare]
  have hnames : (nonDirectives ds).map Definition.typeName? =
      (nonDirectives ds').map Definition.typeName? := by
    simpa [Function.comp_def] using congrArg (List.map Definition.typeName?) hbare
  obtain ⟨htypes, rfl⟩ := convert_eq_ok_iff_isType.1 h
  refine convert_eq_ok_iff_isType.2 ⟨?_, ?_⟩
  · intro d' hd'
    have hmem : d'.typeName? ∈ (nonDirectives ds).map Definition.typeName? :=
      hnames ▸ List.mem_map_of_mem hd'
    obtain ⟨d, hd, heq⟩ := List.mem_map.1 hmem
    rw [Definition.isType, ← heq]
    exact htypes d hd
  · refine congrArg (Schema.Document.mk mode.schemaUri) (Table.eq_of_keys_of_get? ?_ fun name => ?_)
    · have hkeys (ds : List Definition) :
          ds.filterMap Definition.typeName? = (ds.map Definition.typeName?).filterMap id := by
        rw [List.filterMap_map]
        rfl
      rw [Table.keys_ofList, Table.keys_ofList, map_fst_titled, map_fst_titled, hkeys, hkeys,
        hnames]
    · have hlast := congrArg (lastNamed? name) hbare
      rw [lastNamed?_map_bare, lastNamed?_map_bare] at hlast
      rw [Table.get?_ofList, Table.get?_ofList, find?_titled, find?_titled]
      refine bind_congr_of_map hlast fun hd hd' heq => ?_
      exact congrArg Except.toOption
        (Definition.toSchema_congr heq fun hf hf' => hsame.shown hd hd' hf hf')

/-- Under each key of a stored object stands the entry of the last field of that name, which lists
the arguments of the field where they are shown.  Documents that differ in nothing that is shown
have the same schema. -/
theorem arguments_of_convert {mode : Mode} {ds : List Definition} {doc : Schema.Document}
    (h : convert mode ds = .ok doc) :
    (∀ name o, doc.definitions.get? name = some (.object o) →
      ∃ d, lastNamed? name (nonDirectives ds) = some d ∧
        ∀ fieldName ∈ o.properties.keys, ∃ f e, lastField? fieldName d.fields = some f ∧
          o.properties.get? fieldName = some e ∧ ShowsArguments mode d f e) ∧
      ∀ ds', SameShown mode ds ds' → convert mode ds' = .ok doc := by
  refine ⟨?_, fun ds' hsame => convert_of_sameShown hsame h⟩
  intro name o hget
  obtain ⟨d, hd, ho⟩ := (get?_eq_some_iff h).1 hget
  obtain ⟨title, isInput, rfl⟩ := Definition.toSchema_eq_object ho
  refine ⟨d, hd, ?_⟩
  intro fieldName hkey
  rw [keys_objectSchema, List.mem_eraseDups] at hkey
  obtain ⟨f, hf⟩ := exists_lastField? hkey
  refine ⟨f, f.entry mode, hf, ?_, showsArguments_entry mode (mem_of_lastField? hf)⟩
  rw [get?_properties, hf]
  rfl

/-- The arguments of `f` are shown, also the second one of a name and the default that is null.
Those of `g` are not, and neither is the default of the input field, so they can be left out. -/
theorem arguments_of_convert_of_dropped :
    let f : Field := ⟨"f", .list (.named "T" true) false,
      [⟨"a", .named "Int" false, some .null⟩, ⟨"a", .named "T" true, none⟩]⟩
    let ds : List Definition :=
      [.object "T" [f, ⟨"g", .named "T" true, [⟨"a", .named "ID" false, none⟩]⟩],
        .input "I" [⟨"x", .named "ID" false, some (.string "y")⟩]]
    let ds' : List Definition := [.object "T" [f, ⟨"g", .named "T" true, []⟩],
      .input "I" [⟨"x", .named "ID" false, none⟩]]
    ∃ doc, convert .relaxed ds = .ok doc ∧ convert .relaxed ds' = .ok doc ∧
      ∀ name o, doc.definitions.get? name = some (.object o) →
        ∃ d, lastNamed? name (nonDirectives ds) = some d ∧
          ∀ fieldName ∈ o.properties.keys, ∃ f e, lastField? fieldName d.fields = some f ∧
            o.properties.get? fieldName = some e ∧ ShowsArguments .relaxed d f e := by
  intro f ds ds'
  have hsame : SameShown .relaxed ds ds' := by
    refine ⟨rfl, ?_⟩
    intro name fieldName d d' g g' hd hd' hg hg' hshows
    have hname := (typeName?_of_lastNamed? hd).trans (typeName?_of_lastNamed? hd').symm
    have hfield := (name_of_lastField? hg).trans (name_of_lastField? hg').symm
    have hmem := mem_of_lastField? hg
    have hmem' := mem_of_lastField? hg'
    have hd : d ∈ ds := (List.mem_filter.1 (mem_of_lastNamed? hd)).1
    have hd' : d' ∈ ds' := (List.mem_filter.1 (mem_of_lastNamed? hd')).1
    simp only [ds, ds', List.mem_cons, List.not_mem_nil, or_false] at hd hd'
    rcases hd with rfl | rfl <;> rcases hd' with rfl | rfl
    · simp only [Definition.fields, List.mem_cons, List.not_mem_nil, or_false] at hmem hmem'
      rcases hmem with rfl | rfl
      · rcases hmem' with rfl | rfl
        · rfl
        · exact absurd (show "f" = "g" from hfield) (by decide)
      · exact absurd ⟨"T", true, rfl, by decide⟩ hshows.2
    · exact absurd (Option.some.inj (show some "T" = some "I" from hname)) (by decide)
    · exact absurd (Option.some.inj (show some "I" = some "T" from hname)) (by decide)
    · rw [Definition.arguments_eq_nil hmem, Definition.arguments_eq_nil hmem']
  exact ⟨_, rfl, (arguments_of_convert rfl).2 ds' hsame, (arguments_of_convert rfl).1⟩

end Sdl

end SdlSchema
