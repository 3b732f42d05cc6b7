import SdlSchema.Proofs.Convert.Validity
import SdlSchema.Proofs.Json.References

/-!
# The references of a written schema

A schema refers to the names that its stored definitions use, and to no others
(`refers_convert_iff`).  Only what is stored counts: the last definition of
each name, in it the last field of each name, and of a field that is itself a
reference not the arguments, which are dropped beside an `allOf`.  So the
references of a schema dangle exactly if a name is used that the source does
not define.
-/

namespace SdlSchema

open Schema (Fragment pointer)

/-! ## Used names -/

namespace Sdl

/-- The names of the types that every document has without defining them. -/
def builtInNames : List String := ["Int", "Float", "String", "Boolean", "ID"]

/-- A bare name, not a built-in one, that may exclude null. -/
def TypeRef.IsReference (t : TypeRef) : Prop :=
  ∃ name nonNull, t = named name nonNull ∧ name ∉ builtInNames

/-- A stored field uses the name in its type.  Its arguments use names only where they are
shown. -/
def Field.Uses (mode : Mode) (f : Field) (name : String) : Prop :=
  f.type.innermost = name ∨
    mode = .relaxed ∧ ¬ f.type.IsReference ∧ ∃ v ∈ f.arguments, v.type.innermost = name

/-- The last of the fields with the given name. -/
def lastField? (name : String) (fields : List Field) : Option Field :=
  fields.reverse.find? fun f => f.name = name

namespace Definition

/-- No later field of the definition has the name of this one. -/
def Stores (d : Definition) (f : Field) : Prop := lastField? f.name d.fields = some f

def Uses (mode : Mode) (d : Definition) (name : String) : Prop :=
  (∃ title members, d = union title members ∧ name ∈ members) ∨
    ∃ f, d.Stores f ∧ f.Uses mode name

end Definition

/-- A definition that no later one replaces uses the name, which is not built in. -/
def Uses (mode : Mode) (ds : List Definition) (name : String) : Prop :=
  name ∉ builtInNames ∧
    ∃ title d, lastNamed? title (nonDirectives ds) = some d ∧ d.Uses mode name

end Sdl

theorem builtIn?_eq_none_iff {name : String} : builtIn? name = none ↔ name ∉ Sdl.builtInNames := by
  unfold builtIn? Sdl.builtInNames
  split <;> simp_all

theorem Schema.pointer_injective {m n : String} (h : pointer m = pointer n) : m = n := by
  unfold pointer at h
  have hchars := congrArg String.toList h
  rw [String.toList_append, String.toList_append, List.append_cancel_left_eq] at hchars
  exact String.toList_injective hchars

/-! ## Fragments -/

namespace Schema

/-- What the fragment refers to, inside all lists. -/
def Fragment.target? : Fragment → Option String
  | primitive _ _ => none
  | reference target _ => some target
  | array _ element _ => element.target?

@[simp] theorem Fragment.target?_withRequired (b : Bool) (f : Fragment) :
    (f.withRequired b).target? = f.target? := by
  cases f <;> rfl

theorem Fragment.refers_toJson {target : String} (f : Fragment) :
    Json.Refers target f.toJson ↔ f.target? = some target := by
  have hmarker : ∀ required? : Option Bool, ∀ m ∈ requiredMember required?,
      ¬ (m = ("$ref", .string target) ∨ Json.Refers target m.2) := by
    rintro (_ | b) m hm
    · cases hm
    · cases List.mem_singleton.1 hm
      simp
  induction f with
  | primitive type required? =>
    simp only [toJson, members, Json.refers_object, target?, reduceCtorEq, iff_false]
    rintro ⟨m, hm, h⟩
    rcases List.mem_cons.1 hm with rfl | hm
    · simp at h
    · exact hmarker required? m hm h
  | reference t required? =>
    simp only [toJson, members, Json.refers_object, target?, Option.some.injEq]
    constructor
    · rintro ⟨m, hm, h⟩
      rcases List.mem_cons.1 hm with rfl | hm
      · simpa using h
      · exact absurd h (hmarker required? m hm)
    · rintro rfl
      exact ⟨_, List.mem_cons_self, Or.inl rfl⟩
  | array items element required? ih =>
    have hitems : Json.Refers target (items.wrap (.object element.members)) ↔
        element.target? = some target := by
      cases items with
      | nested => simpa [Items.wrap, toJson] using ih
      | direct => exact ih
    simp only [toJson, members, Json.refers_object, target?, ← hitems]
    constructor
    · rintro ⟨m, hm, h⟩
      rcases List.mem_cons.1 hm with rfl | hm
      · simp at h
      rcases List.mem_cons.1 hm with rfl | hm
      · simpa using h
      · exact absurd h (hmarker required? m hm)
    · intro h
      exact ⟨_, List.mem_cons_of_mem _ List.mem_cons_self, Or.inr h⟩

namespace PropertyEntry

variable {target : String} (f : Fragment) (title : String) (arguments? : Option (List Argument))

theorem refers_inline :
    Json.Refers target (ofProperty ⟨.inline f, title, arguments?⟩).toJson ↔
      Json.Refers target f.toJson ∨ ∃ as ∈ arguments?, ∃ a ∈ as, Json.Refers target a.toJson := by
  simp only [ofProperty, toJson, Property.toJson, PropertySchema.members, Fragment.toJson,
    Json.refers_object, List.mem_append, or_and_right, exists_or]
  cases arguments? with
  | none => simp
  | some as => simp [-Json.refers_array, Json.refers_array_map]

/-- The arguments are not kept beside a composition. -/
theorem refers_composed :
    Json.Refers target (ofProperty ⟨.composed ⟨f, title⟩, title, arguments?⟩).toJson ↔
      Json.Refers target f.toJson := by
  simp [ofProperty, toJson, AllOf.toJson]

end PropertyEntry

end Schema

/-! ## Types -/

namespace Mode

@[simp] theorem target?_markNonNull (mode : Mode) (nonNull : Bool) (f : Fragment) :
    (mode.markNonNull nonNull f).target? = f.target? := by
  cases mode with
  | strict => rfl
  | relaxed => cases nonNull <;> simp [markNonNull]

@[simp] theorem isReference_markNonNull (mode : Mode) (nonNull : Bool) (f : Fragment) :
    (mode.markNonNull nonNull f).isReference = f.isReference := by
  cases mode with
  | strict => rfl
  | relaxed => cases nonNull <;> cases f <;> rfl

theorem target?_named (mode : Mode) (name : String) :
    (mode.named name).target? =
      if name ∈ Sdl.builtInNames then none else some (pointer name) := by
  unfold named
  cases hname : builtIn? name with
  | none =>
    rw [if_neg (builtIn?_eq_none_iff.1 hname)]
    rfl
  | some p =>
    have hmem : name ∈ Sdl.builtInNames := Decidable.byContradiction fun hnot => by
      rw [builtIn?_eq_none_iff.2 hnot] at hname
      cases hname
    rw [if_pos hmem]
    cases mode <;> rfl

theorem refers_named (mode : Mode) (name : String) {target : String} :
    Json.Refers target (mode.named name).toJson ↔
      name ∉ Sdl.builtInNames ∧ target = pointer name := by
  rw [Fragment.refers_toJson, target?_named]
  by_cases h : name ∈ Sdl.builtInNames
  · simp [h]
  · simp [h, eq_comm]

theorem isReference_named (mode : Mode) (name : String) :
    (mode.named name).isReference = true ↔ name ∉ Sdl.builtInNames := by
  rw [← builtIn?_eq_none_iff]
  unfold named
  cases builtIn? name with
  | none => exact iff_of_true rfl rfl
  | some p => cases mode <;> exact iff_of_false nofun nofun

end Mode

namespace Sdl

variable {mode : Mode} {target : String}

theorem TypeRef.target?_toFragment (mode : Mode) (t : TypeRef) :
    (t.toFragment mode).target? = (mode.named t.innermost).target? := by
  induction t with
  | named n nonNull =>
    rw [toFragment, Mode.target?_markNonNull]
    rfl
  | list t nonNull ih =>
    rw [toFragment, Mode.target?_markNonNull]
    exact ih

variable (mode target) in
theorem TypeRef.refers_toFragment (t : TypeRef) :
    Json.Refers target (t.toFragment mode).toJson ↔
      t.innermost ∉ builtInNames ∧ target = pointer t.innermost := by
  rw [Fragment.refers_toJson, target?_toFragment, ← Fragment.refers_toJson]
  exact mode.refers_named t.innermost

theorem TypeRef.isReference_toFragment (t : TypeRef) :
    (t.toFragment mode).isReference = true ↔ t.IsReference := by
  cases t with
  | named n nonNull =>
    rw [toFragment, Mode.isReference_markNonNull, Mode.isReference_named]
    constructor
    · intro h
      exact ⟨n, nonNull, rfl, h⟩
    · rintro ⟨n', nonNull', heq, h⟩
      cases heq
      exact h
  | list t nonNull =>
    rw [toFragment, Mode.isReference_markNonNull]
    constructor
    · intro h
      cases h
    · rintro ⟨n, nonNull', heq, -⟩
      cases heq

/-! ## Fields -/

theorem InputValue.refers_toArgument {v : InputValue} (hnames : ∀ n ∈ v.names, IsName n) :
    Json.Refers target (v.toArgument mode).toJson ↔
      v.type.innermost ∉ builtInNames ∧ target = pointer v.type.innermost := by
  rw [← v.type.refers_toFragment mode target]
  obtain ⟨name, type, default?⟩ := v
  cases default? with
  | none => simp [toArgument, Schema.Argument.toJson]
  | some c =>
    have hc : ¬ Json.Refers target c.toJson.json :=
      c.not_refers_toJson target fun n hn => hnames n (by simp [InputValue.names, hn])
    simp [toArgument, Schema.Argument.toJson, hc]

theorem Field.refers_arguments {f : Field} (hnames : ∀ n ∈ f.names, IsName n) :
    (∃ as ∈ f.arguments? mode, ∃ a ∈ as, Json.Refers target a.toJson) ↔
      mode = .relaxed ∧ ∃ v ∈ f.arguments,
        v.type.innermost ∉ builtInNames ∧ target = pointer v.type.innermost := by
  have hv : ∀ v ∈ f.arguments, ∀ n ∈ v.names, IsName n := fun v hv n hn =>
    hnames n (List.mem_cons_of_mem _ (List.mem_cons_of_mem _ (List.mem_flatMap.2 ⟨v, hv, hn⟩)))
  cases mode with
  | strict => simp [arguments?]
  | relaxed =>
    constructor
    · rintro ⟨as, has, a, ha, h⟩
      obtain ⟨-, rfl⟩ : f.arguments ≠ [] ∧
          f.arguments.map (InputValue.toArgument .relaxed) = as := by
        simpa [arguments?] using has
      obtain ⟨v, hmem, rfl⟩ := List.mem_map.1 ha
      exact ⟨rfl, v, hmem, (InputValue.refers_toArgument (hv v hmem)).1 h⟩
    · rintro ⟨-, v, hmem, h⟩
      have hne : f.arguments ≠ [] := List.ne_nil_of_mem hmem
      refine ⟨f.arguments.map (InputValue.toArgument .relaxed), by simp [arguments?, hne],
        v.toArgument .relaxed, List.mem_map_of_mem hmem, ?_⟩
      exact (InputValue.refers_toArgument (hv v hmem)).2 h

/-- The entry of a field refers to the names that the field uses, unless they are built in. -/
theorem Field.refers_entry {f : Field} (hnames : ∀ n ∈ f.names, IsName n) :
    Json.Refers target (Schema.PropertyEntry.ofProperty (f.toProperty mode)).toJson ↔
      ∃ n, n ∉ builtInNames ∧ f.Uses mode n ∧ target = pointer n := by
  have htype := f.type.refers_toFragment mode target
  unfold Field.toProperty Field.schema
  -- the arguments are listed unless the type is a reference
  by_cases href : f.type.IsReference
  · have hshape : (f.type.toFragment mode).isReference = true :=
      f.type.isReference_toFragment.2 href
    simp only [hshape, if_true, Schema.PropertyEntry.refers_composed, htype, Field.Uses, href,
      not_true_eq_false, false_and, and_false, or_false]
    constructor
    · rintro ⟨hn, htarget⟩
      exact ⟨_, hn, rfl, htarget⟩
    · rintro ⟨n, hn, rfl, htarget⟩
      exact ⟨hn, htarget⟩
  · have hshape : (f.type.toFragment mode).isReference = false := by
      rw [← Bool.not_eq_true, f.type.isReference_toFragment]
      exact href
    simp only [hshape, Bool.false_eq_true, if_false, Schema.PropertyEntry.refers_inline, htype,
      Field.refers_arguments hnames, Field.Uses]
    constructor
    · rintro (⟨hn, rfl⟩ | ⟨hmode, v, hv, hn, rfl⟩)
      · exact ⟨_, hn, Or.inl rfl, rfl⟩
      · exact ⟨_, hn, Or.inr ⟨hmode, href, v, hv, rfl⟩, rfl⟩
    · rintro ⟨n, hn, (rfl | ⟨hmode, -, v, hv, rfl⟩), rfl⟩
      · exact Or.inl ⟨hn, rfl⟩
      · exact Or.inr ⟨hmode, v, hv, hn, rfl⟩

/-! ## Definitions -/

theorem mem_properties {title : String} {fields : List Field} {isInput : Bool}
    {e : String × Schema.PropertyEntry} :
    e ∈ (objectSchema mode title fields isInput).properties.entries ↔
      ∃ f, lastField? f.name fields = some f ∧
        e = (f.name, Schema.PropertyEntry.ofProperty (f.toProperty mode)) := by
  obtain ⟨name, entry⟩ := e
  unfold objectSchema
  rw [Table.mem_entries_iff, Table.get?_ofList, ← List.map_reverse, List.find?_map]
  simp only [Function.comp_def, Option.map_map, Option.map_eq_some_iff, lastField?]
  constructor
  · rintro ⟨f, hf, rfl⟩
    have hname : f.name = name := by simpa using List.find?_some hf
    subst hname
    exact ⟨f, hf, rfl⟩
  · rintro ⟨f, hf, heq⟩
    cases heq
    exact ⟨f, hf, rfl⟩

theorem refers_objectSchema {title : String} {fields : List Field} {isInput : Bool}
    (hnames : ∀ n ∈ fields.flatMap Field.names, IsName n) :
    Json.Refers target (objectSchema mode title fields isInput).toJson ↔
      ∃ n, n ∉ builtInNames ∧ (∃ f, lastField? f.name fields = some f ∧ f.Uses mode n) ∧
        target = pointer n := by
  have hobject : ∀ e : Schema.PropertyEntry, ∃ ms, e.toJson = .object ms := by
    intro e
    cases e <;> exact ⟨_, rfl⟩
  have hproperties : Json.Refers target (objectSchema mode title fields isInput).toJson ↔
      ∃ e ∈ (objectSchema mode title fields isInput).properties.entries,
        Json.Refers target e.2.toJson := by
    rw [← Json.refers_object_map hobject]
    unfold Schema.ObjectDefinition.toJson
    cases (objectSchema mode title fields isInput).input? <;> simp
  have hfield : ∀ {f : Field}, lastField? f.name fields = some f → ∀ n ∈ f.names, IsName n := by
    intro f hf n hn
    have hmem : f ∈ fields := List.mem_reverse.1 (List.mem_of_find?_eq_some hf)
    exact hnames n (List.mem_flatMap.2 ⟨f, hmem, hn⟩)
  rw [hproperties]
  constructor
  · rintro ⟨e, he, h⟩
    obtain ⟨f, hf, rfl⟩ := mem_properties.1 he
    obtain ⟨n, hn, huses, htarget⟩ := (Field.refers_entry (hfield hf)).1 h
    exact ⟨n, hn, ⟨f, hf, huses⟩, htarget⟩
  · rintro ⟨n, hn, ⟨f, hf, huses⟩, htarget⟩
    exact ⟨_, mem_properties.2 ⟨f, hf, rfl⟩,
      (Field.refers_entry (hfield hf)).2 ⟨n, hn, huses, htarget⟩⟩

theorem Definition.names_fields {d : Definition} {n : String}
    (h : n ∈ d.fields.flatMap Field.names) : n ∈ d.names := by
  cases d with
  | object name fields | interface name fields => exact List.mem_cons_of_mem name h
  | input name fields =>
    obtain ⟨f, hf, hn⟩ := List.mem_flatMap.1 h
    obtain ⟨v, hv, rfl⟩ := List.mem_map.1 hf
    refine List.mem_cons_of_mem name (List.mem_flatMap.2 ⟨v, hv, ?_⟩)
    simp only [Field.names, InputValue.toField, List.flatMap_nil, List.mem_cons,
      List.not_mem_nil, or_false] at hn
    rcases hn with rfl | rfl
    · exact List.mem_cons_self
    · exact List.mem_cons_of_mem _ List.mem_cons_self
  | _ => cases h

theorem Definition.refers_toSchema {d : Definition} {s : Schema.Definition}
    (hnames : ∀ n ∈ d.names, IsName n) (h : d.toSchema mode = .ok s) :
    Json.Refers target s.toJson ↔
      ∃ n, n ∉ builtInNames ∧ d.Uses mode n ∧ target = pointer n := by
  have hobject : ∀ {title : String} {isInput : Bool},
      s = .object (objectSchema mode title d.fields isInput) →
        (∀ title members, d ≠ union title members) →
          (Json.Refers target s.toJson ↔
            ∃ n, n ∉ builtInNames ∧ d.Uses mode n ∧ target = pointer n) := by
    rintro title isInput rfl hunion
    refine (refers_objectSchema fun n hn => hnames n (names_fields hn)).trans ?_
    simp only [Definition.Uses, Stores, hunion, false_and, exists_false, false_or]
  cases d with
  | scalar name =>
    cases h
    cases mode <;>
      simp [Schema.Definition.toJson, Mode.isStrict, Definition.Uses, Stores, fields, lastField?]
  | enum name values =>
    cases h
    simp [Schema.Definition.toJson, Definition.Uses, Stores, fields, lastField?]
  | union name members =>
    cases h
    have hmembers : Json.Refers target
        (Schema.Definition.toJson (.union name (members.map mode.named))) ↔
          ∃ m ∈ members, m ∉ builtInNames ∧ target = pointer m := by
      rw [Schema.Definition.toJson, List.map_map]
      simp [-Json.refers_array, Json.refers_array_map, mode.refers_named]
    rw [hmembers]
    constructor
    · rintro ⟨m, hm, hn, htarget⟩
      exact ⟨m, hn, Or.inl ⟨name, members, rfl, hm⟩, htarget⟩
    · rintro ⟨n, hn, ⟨title, members', heq, hmem⟩ | ⟨f, hf, -⟩, htarget⟩
      · cases heq
        exact ⟨n, hmem, hn, htarget⟩
      · cases hf
  | object name fields | interface name fields | input name fields =>
    cases h
    exact hobject rfl (by simp)
  | _ => cases h

/-! ## Documents -/

theorem mem_of_lastNamed? {name : String} {ds : List Definition} {d : Definition}
    (h : lastNamed? name ds = some d) : d ∈ ds :=
  List.mem_reverse.1 (List.mem_of_find?_eq_some h)

theorem mem_keys_convert_iff {ds : List Definition} {doc : Schema.Document}
    (h : convert mode ds = .ok doc) {name : String} :
    name ∈ doc.definitions.keys ↔ ∃ d ∈ nonDirectives ds, d.typeName? = some name := by
  rw [Table.mem_keys_iff]
  constructor
  · rintro ⟨s, hs⟩
    obtain ⟨d, hd, -⟩ := (get?_eq_some_iff h).1 hs
    exact ⟨d, mem_of_lastNamed? hd, typeName?_of_lastNamed? hd⟩
  · rintro ⟨d, hd, hname⟩
    have hsome : (lastNamed? name (nonDirectives ds)).isSome = true :=
      List.find?_isSome.2 ⟨d, List.mem_reverse.2 hd, by simpa using hname⟩
    obtain ⟨d', hd'⟩ := Option.isSome_iff_exists.1 hsome
    obtain ⟨s, hs, -⟩ := Definition.toSchema_of_typeName? mode (typeName?_of_lastNamed? hd')
    exact ⟨s, (get?_eq_some_iff h).2 ⟨d', hd', hs⟩⟩

theorem refers_convert_iff {ds : List Definition} {doc : Schema.Document}
    (hnames : ∀ d ∈ ds, ∀ n ∈ d.names, IsName n) (h : convert mode ds = .ok doc) :
    Json.Refers target doc.toJson ↔ ∃ n, Uses mode ds n ∧ target = pointer n := by
  have hobject : ∀ s : Schema.Definition, ∃ ms, s.toJson = .object ms := by
    intro s
    cases s <;> exact ⟨_, rfl⟩
  have hdefinitions : Json.Refers target doc.toJson ↔
      ∃ e ∈ doc.definitions.entries, Json.Refers target e.2.toJson := by
    rw [← Json.refers_object_map hobject]
    simp [Schema.Document.toJson]
  have hstored : ∀ {title : String} {d : Definition},
      lastNamed? title (nonDirectives ds) = some d → ∀ n ∈ d.names, IsName n := fun hd =>
    hnames _ (List.mem_filter.1 (mem_of_lastNamed? hd)).1
  rw [hdefinitions]
  constructor
  · rintro ⟨⟨title, s⟩, he, href⟩
    obtain ⟨d, hd, hs⟩ := (get?_eq_some_iff h).1 (Table.mem_entries_iff.1 he)
    obtain ⟨n, hn, huses, htarget⟩ :=
      (Definition.refers_toSchema (hstored hd) hs).1 href
    exact ⟨n, ⟨hn, title, d, hd, huses⟩, htarget⟩
  · rintro ⟨n, ⟨hn, title, d, hd, huses⟩, htarget⟩
    obtain ⟨s, hs, -⟩ := Definition.toSchema_of_typeName? mode (typeName?_of_lastNamed? hd)
    refine ⟨(title, s), Table.mem_entries_iff.2 ((get?_eq_some_iff h).2 ⟨d, hd, hs⟩), ?_⟩
    exact (Definition.refers_toSchema (hstored hd) hs).2 ⟨n, hn, huses, htarget⟩

/-- The strings under `$ref` in a written schema are the pointers to the used names.  So every
reference leads to a definition of the schema exactly if the source defines every used name.  A
definition with the name of a built-in type is never referred to. -/
theorem references_of_convert {ds : List Definition} {doc : Schema.Document}
    (hnames : ∀ d ∈ ds, ∀ n ∈ d.names, IsName n) (h : convert mode ds = .ok doc) :
    (∀ target, Json.Refers target doc.toJson ↔ ∃ n, Uses mode ds n ∧ target = pointer n) ∧
      ((∀ target, Json.Refers target doc.toJson →
          ∃ name ∈ doc.definitions.keys, target = pointer name) ↔
        ∀ n, Uses mode ds n → ∃ d ∈ nonDirectives ds, d.typeName? = some n) ∧
      ∀ n ∈ builtInNames, ¬ Json.Refers (pointer n) doc.toJson := by
  have hrefers : ∀ target, Json.Refers target doc.toJson ↔
      ∃ n, Uses mode ds n ∧ target = pointer n := fun target => refers_convert_iff hnames h
  refine ⟨hrefers, ⟨?_, ?_⟩, ?_⟩
  · intro hresolve n hn
    obtain ⟨name, hname, heq⟩ := hresolve _ ((hrefers _).2 ⟨n, hn, rfl⟩)
    rw [Schema.pointer_injective heq]
    exact (mem_keys_convert_iff h).1 hname
  · intro hdefined target href
    obtain ⟨n, hn, rfl⟩ := (hrefers target).1 href
    exact ⟨n, (mem_keys_convert_iff h).2 (hdefined n hn), rfl⟩
  · intro n hn href
    obtain ⟨n', hn', heq⟩ := (hrefers _).1 href
    rw [Schema.pointer_injective heq] at hn
    exact hn'.1 hn

/-- The first definition of `T` is replaced, and so is the first field `f` of the second one; the
arguments of `g` are shown, those of `f` are not. -/
theorem references_of_convert_of_replaced :
    let ds : List Definition := [.object "T" [⟨"f", .named "A" false, []⟩],
      .object "T" [⟨"f", .named "B" false, []⟩,
        ⟨"f", .named "T" true, [⟨"a", .named "C" false, none⟩]⟩,
        ⟨"g", .named "Int" false, [⟨"a", .list (.named "D" true) false,
          some (.object [("k", .string "#/definitions/E")])⟩]⟩]]
    (∀ d ∈ ds, ∀ n ∈ d.names, IsName n) ∧ ∃ doc, convert .relaxed ds = .ok doc ∧
      (∀ target, Json.Refers target doc.toJson ↔
        ∃ n, Uses .relaxed ds n ∧ target = pointer n) ∧
      ((∀ target, Json.Refers target doc.toJson →
          ∃ name ∈ doc.definitions.keys, target = pointer name) ↔
        ∀ n, Uses .relaxed ds n → ∃ d ∈ nonDirectives ds, d.typeName? = some n) ∧
      ∀ n ∈ builtInNames, ¬ Json.Refers (pointer n) doc.toJson := by
  intro ds
  have hnames : ∀ d ∈ ds, ∀ n ∈ d.names, IsName n := by decide
  exact ⟨hnames, _, rfl, references_of_convert hnames rfl⟩

end Sdl

end SdlSchema
