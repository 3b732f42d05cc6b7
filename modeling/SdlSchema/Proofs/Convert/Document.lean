import SdlSchema.Convert.Document
import SdlSchema.Proofs.Table

/-!
# What a document becomes

A conversion is one pass over the definitions that are no directives, each
converted on its own, followed by insertions from left to right (`convert_eq`).
So it fails at the first definition that defines no type, and else keeps one
schema for each name: its place is that of the first definition of the name and
its content that of the last one (`convert_outcome`).
-/

namespace SdlSchema.Sdl

namespace Definition

/-- The name of a type definition. -/
def typeName? : Definition → Option String
  | scalar name => some name
  | object name _ => some name
  | interface name _ => some name
  | union name _ => some name
  | enum name _ => some name
  | input name _ => some name
  | _ => none

def isType (d : Definition) : Bool := d.typeName?.isSome

/-- The schema of a definition, if its kind has one. -/
def toSchema? (mode : Mode) (d : Definition) : Option Schema.Definition :=
  (d.toSchema mode).toOption

theorem toSchema?_eq_some_iff {mode : Mode} {d : Definition} {s : Schema.Definition} :
    d.toSchema? mode = some s ↔ d.toSchema mode = .ok s := by
  unfold toSchema?
  cases d.toSchema mode <;> simp [Except.toOption]

theorem toSchema_of_not_isType {mode : Mode} {d : Definition} (h : d.isType = false) :
    d.toSchema mode = .error (.unknownKind d.kind) := by
  cases d <;> first | rfl | cases h

/-- A type definition has a schema, titled with its name. -/
theorem toSchema_of_typeName? (mode : Mode) {d : Definition} {name : String}
    (h : d.typeName? = some name) : ∃ s, d.toSchema mode = .ok s ∧ s.title = name := by
  cases d <;> cases h <;> exact ⟨_, rfl, rfl⟩

theorem map_title_toSchema? (mode : Mode) (d : Definition) :
    (d.toSchema? mode).map Schema.Definition.title = d.typeName? := by
  cases d <;> rfl

end Definition

/-! ## The two halves of a conversion -/

/-- The definitions that a conversion does not pass over. -/
def nonDirectives (ds : List Definition) : List Definition := ds.filter fun d => !d.isDirective

/-- The entries that schemas have in a table. -/
def titled (ss : List Schema.Definition) : List (String × Schema.Definition) :=
  ss.map fun s => (s.title, s)

theorem result_collect (mode : Mode) (t : Table Schema.Definition) (ds : List Definition) :
    (collect mode t ds).result =
      ((nonDirectives ds).mapM (Definition.toSchema mode)).map fun ss =>
        t.insertAll (titled ss) := by
  induction ds generalizing t with
  | nil => rfl
  | cons d ds ih =>
    unfold collect nonDirectives
    cases hd : d.isDirective with
    | true =>
      simp only [↓reduceIte, List.filter_cons, hd, Bool.not_true, Bool.false_eq_true]
      exact ih t
    | false =>
      simp only [Bool.false_eq_true, ↓reduceIte, List.filter_cons, hd, Bool.not_false,
        List.mapM_cons]
      cases hs : d.toSchema mode with
      | error e => rfl
      | ok s =>
        change (collect mode (t.insert s.title s) ds).result = _
        rw [ih, nonDirectives]
        cases (ds.filter fun d => !d.isDirective).mapM (Definition.toSchema mode) <;> rfl

/-- A conversion converts the definitions one by one and then inserts their schemas. -/
theorem convert_eq (mode : Mode) (ds : List Definition) :
    convert mode ds =
      ((nonDirectives ds).mapM (Definition.toSchema mode)).map fun ss =>
        ⟨mode.schemaUri, Table.ofList (titled ss)⟩ := by
  change (collect mode .empty ds).result.map _ = _
  rw [result_collect]
  cases (nonDirectives ds).mapM (Definition.toSchema mode) <;> rfl

/-- The first definition that defines no type decides between failure and success. -/
theorem mapM_toSchema (mode : Mode) (ds : List Definition) :
    ds.mapM (Definition.toSchema mode) =
      match ds.find? fun d => !d.isType with
      | some d => .error (.unknownKind d.kind)
      | none => .ok (ds.filterMap (Definition.toSchema? mode)) := by
  induction ds with
  | nil => rfl
  | cons d ds ih =>
    rw [List.mapM_cons, List.find?_cons]
    cases hd : d.typeName? with
    | none =>
      have hn : d.isType = false := by simp [Definition.isType, hd]
      rw [Definition.toSchema_of_not_isType hn, hn]
      rfl
    | some name =>
      have ht : d.isType = true := by simp [Definition.isType, hd]
      obtain ⟨s, hs, -⟩ := Definition.toSchema_of_typeName? mode hd
      have hs? : d.toSchema? mode = some s := Definition.toSchema?_eq_some_iff.2 hs
      rw [hs, ih, ht, List.filterMap_cons, hs?]
      cases ds.find? fun d => !d.isType <;> rfl

/-! ## Keys and values -/

/-- The last of the definitions with the given name. -/
def lastNamed? (name : String) (ds : List Definition) : Option Definition :=
  ds.reverse.find? fun d => d.typeName? = some name

theorem typeName?_of_lastNamed? {name : String} {ds : List Definition} {d : Definition}
    (h : lastNamed? name ds = some d) : d.typeName? = some name := by
  simpa using List.find?_some h

theorem map_fst_titled (mode : Mode) (ds : List Definition) :
    (titled (ds.filterMap (Definition.toSchema? mode))).map Prod.fst =
      ds.filterMap Definition.typeName? := by
  rw [titled, List.map_map, List.map_filterMap]
  exact congrArg (ds.filterMap ·) (funext fun d => Definition.map_title_toSchema? mode d)

/-- The last schema with a title comes from the last definition of that name. -/
theorem find?_titled (mode : Mode) (ds : List Definition) (name : String) :
    ((titled (ds.filterMap (Definition.toSchema? mode))).reverse.find? fun p => p.1 = name).map
        Prod.snd = (lastNamed? name ds).bind (Definition.toSchema? mode) := by
  have hany : ∀ d : Definition,
      (d.toSchema? mode).any (fun s => s.title = name) = decide (d.typeName? = some name) := by
    intro d
    rw [← Definition.map_title_toSchema? mode d]
    cases d.toSchema? mode <;> simp
  rw [titled, ← List.map_reverse, ← List.filterMap_reverse, List.find?_map, List.find?_filterMap,
    Option.map_map, lastNamed?]
  simp only [Function.comp_def, Option.map_id', hany]

/-- What is stored under a name is the schema of the last definition of that name. -/
theorem get?_of_convert {mode : Mode} {ds : List Definition} {doc : Schema.Document}
    (h : convert mode ds = .ok doc) (name : String) :
    doc.definitions.get? name =
      (lastNamed? name (nonDirectives ds)).bind (Definition.toSchema? mode) := by
  rw [convert_eq, mapM_toSchema] at h
  cases hf : (nonDirectives ds).find? fun d => !d.isType with
  | some d => rw [hf] at h; cases h
  | none =>
    rw [hf] at h
    cases h
    rw [Table.get?_ofList, find?_titled]

theorem get?_eq_some_iff {mode : Mode} {ds : List Definition} {doc : Schema.Document}
    (h : convert mode ds = .ok doc) {name : String} {s : Schema.Definition} :
    doc.definitions.get? name = some s ↔
      ∃ d, lastNamed? name (nonDirectives ds) = some d ∧ d.toSchema mode = .ok s := by
  rw [get?_of_convert h, Option.bind_eq_some_iff]
  simp only [Definition.toSchema?_eq_some_iff]

/-- The first definition in `ds` that is neither a directive nor a type makes the conversion fail.
Else it succeeds: the keys are the names in the order of their first definitions, and each key has
the schema of the last definition of that name. -/
theorem convert_outcome (mode : Mode) (ds : List Definition) :
    match (nonDirectives ds).find? fun d => !d.isType with
    | some d => convert mode ds = .error (.unknownKind d.kind)
    | none => ∃ doc, convert mode ds = .ok doc ∧ doc.schema = mode.schemaUri ∧
        doc.definitions.keys = ((nonDirectives ds).filterMap Definition.typeName?).eraseDups ∧
        ∀ name ∈ doc.definitions.keys, ∃ d s, lastNamed? name (nonDirectives ds) = some d ∧
          d.toSchema mode = .ok s ∧ doc.definitions.get? name = some s ∧ s.title = name := by
  have heq := convert_eq mode ds
  rw [mapM_toSchema] at heq
  cases hf : (nonDirectives ds).find? fun d => !d.isType with
  | some d => rw [hf] at heq; exact heq
  | none =>
    rw [hf] at heq
    refine ⟨_, heq, rfl, ?_, ?_⟩
    · rw [Table.keys_ofList, map_fst_titled]
    · intro name hname
      obtain ⟨s, hget⟩ := Table.mem_keys_iff.1 hname
      obtain ⟨d, hd, hs⟩ := (get?_eq_some_iff heq).1 hget
      obtain ⟨s', hs', htitle⟩ :=
        Definition.toSchema_of_typeName? mode (typeName?_of_lastNamed? hd)
      rw [hs] at hs'
      cases hs'
      exact ⟨d, s, hd, hs, hget, htitle⟩

end SdlSchema.Sdl
