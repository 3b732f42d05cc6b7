import SdlSchema.Proofs.Convert.Document

/-!
# Strict output is relaxed output without its metadata

Erasure drops from a schema all that relaxed mode adds: the markers and the
extra level of array elements at every depth, the arguments, the markers of
scalars and input objects.  Everything else stays, and so does the order.

Each stage of a conversion commutes with it, from the fragment of a type
(`toFragment_strict`) over properties and definitions to documents and source
texts (`strict_eq_erase_relaxed`).
-/

namespace SdlSchema.Schema

/-! ## Erasure -/

/-- No level has a marker, and arrays hold their elements directly. -/
def Fragment.erase : Fragment → Fragment
  | primitive type _ => primitive type none
  | reference target _ => reference target none
  | array _ element _ => array .direct element.erase none

def AllOf.erase (a : AllOf) : AllOf := { a with reference := a.reference.erase }

def PropertySchema.erase : PropertySchema → PropertySchema
  | inline f => inline f.erase
  | composed a => composed a.erase

def Property.erase (p : Property) : Property :=
  { p with schema := p.schema.erase, arguments? := none }

def PropertyEntry.erase : PropertyEntry → PropertyEntry
  | field p => field p.erase
  | allOf a => allOf a.erase

def ObjectDefinition.erase (d : ObjectDefinition) : ObjectDefinition :=
  { d with properties := d.properties.map PropertyEntry.erase, input? := none }

def Definition.erase : Definition → Definition
  | scalar title _ => scalar title false
  | union title oneOf => union title (oneOf.map Fragment.erase)
  | enum title values => enum title values
  | object d => object d.erase

def Document.erase (d : Document) : Document where
  schema := Mode.strict.schemaUri
  definitions := d.definitions.map Definition.erase

@[simp] theorem Fragment.erase_withRequired (b : Bool) (f : Fragment) :
    (f.withRequired b).erase = f.erase := by
  cases f <;> rfl

@[simp] theorem Fragment.isReference_erase (f : Fragment) :
    f.erase.isReference = f.isReference := by
  cases f <;> rfl

@[simp] theorem Definition.title_erase (d : Definition) : d.erase.title = d.title := by
  cases d <;> rfl

theorem PropertyEntry.erase_ofProperty (p : Property) :
    (ofProperty p).erase = ofProperty p.erase := by
  obtain ⟨schema, title, arguments?⟩ := p
  cases schema <;> rfl

end SdlSchema.Schema

namespace SdlSchema

open Schema (Fragment Property PropertyEntry)

/-! ## Types -/

namespace Mode

theorem named_strict (name : String) : strict.named name = (relaxed.named name).erase := by
  simp only [named]
  cases builtIn? name with
  | none => rfl
  | some p => rfl

@[simp] theorem markNonNull_strict (nonNull : Bool) (f : Fragment) :
    strict.markNonNull nonNull f = f := rfl

@[simp] theorem erase_markNonNull (mode : Mode) (nonNull : Bool) (f : Fragment) :
    (mode.markNonNull nonNull f).erase = f.erase := by
  cases mode with
  | strict => rfl
  | relaxed => cases nonNull <;> simp [markNonNull]

end Mode

namespace Sdl

theorem toFragment_strict (t : TypeRef) : t.toFragment .strict = (t.toFragment .relaxed).erase := by
  induction t with
  | named n nonNull =>
    simp only [TypeRef.toFragment, Mode.markNonNull_strict, Mode.erase_markNonNull]
    exact Mode.named_strict n
  | list t nonNull ih =>
    simp only [TypeRef.toFragment, Mode.markNonNull_strict, Mode.erase_markNonNull, ih]
    rfl

/-! ## Fields -/

theorem schema_strict (f : Field) : f.schema .strict = (f.schema .relaxed).erase := by
  simp only [Field.schema, toFragment_strict, Fragment.isReference_erase]
  split <;> rfl

theorem toProperty_strict (f : Field) : f.toProperty .strict = (f.toProperty .relaxed).erase := by
  simp only [Field.toProperty, Property.erase, schema_strict]
  rfl

/-- The properties agree whatever names the fields repeat; the required names come from the types
as they are written, which no mode changes. -/
theorem objectSchema_strict (title : String) (fields : List Field) (isInput : Bool) :
    objectSchema .strict title fields isInput =
      (objectSchema .relaxed title fields isInput).erase := by
  have hentry : ∀ f : Field, PropertyEntry.ofProperty (f.toProperty .strict) =
      (PropertyEntry.ofProperty (f.toProperty .relaxed)).erase := fun f => by
    rw [toProperty_strict, PropertyEntry.erase_ofProperty]
  simp only [objectSchema, Schema.ObjectDefinition.erase, Table.map_ofList, List.map_map,
    Function.comp_def, hentry, Mode.isStrict, Bool.not_true, Bool.and_false, Bool.false_eq_true,
    ↓reduceIte]

/-! ## Definitions -/

theorem toSchema_strict (d : Definition) :
    d.toSchema .strict = (d.toSchema .relaxed).map Schema.Definition.erase := by
  cases d with
  | scalar name => rfl
  | enum name values => rfl
  | union name members =>
    have hnamed : members.map Mode.strict.named =
        (members.map Mode.relaxed.named).map Fragment.erase := by
      rw [List.map_map]
      exact List.map_congr_left fun n _ => Mode.named_strict n
    exact congrArg (fun ms => Except.ok (Schema.Definition.union name ms)) hnamed
  | object name fields | interface name fields =>
    exact congrArg (fun o => Except.ok (Schema.Definition.object o))
      (objectSchema_strict name fields false)
  | input name fields =>
    exact congrArg (fun o => Except.ok (Schema.Definition.object o))
      (objectSchema_strict name _ true)
  | _ => rfl

/-! ## Documents -/

/-- Converting one by one in strict mode erases what relaxed mode finds, and fails where it
fails. -/
theorem mapM_toSchema_strict (ds : List Definition) :
    ds.mapM (Definition.toSchema .strict) =
      (ds.mapM (Definition.toSchema .relaxed)).map (List.map Schema.Definition.erase) := by
  induction ds with
  | nil => rfl
  | cons d ds ih =>
    rw [List.mapM_cons, List.mapM_cons, ih, toSchema_strict]
    cases d.toSchema .relaxed with
    | error e => rfl
    | ok s => cases ds.mapM (Definition.toSchema .relaxed) <;> rfl

theorem erase_ofList_titled (ss : List Schema.Definition) :
    (Table.ofList (titled ss)).map Schema.Definition.erase =
      Table.ofList (titled (ss.map Schema.Definition.erase)) := by
  rw [Table.map_ofList, titled, titled, List.map_map, List.map_map]
  simp only [Function.comp_def, Schema.Definition.title_erase]

theorem convert_strict (ds : List Definition) :
    convert .strict ds = (convert .relaxed ds).map Schema.Document.erase := by
  rw [convert_eq, convert_eq, mapM_toSchema_strict]
  cases (nonDirectives ds).mapM (Definition.toSchema .relaxed) with
  | error e => rfl
  | ok ss =>
    refine congrArg (fun t => Except.ok (Schema.Document.mk Mode.strict.schemaUri t)) ?_
    exact (erase_ofList_titled ss).symm

end Sdl

/-- **The modes agree up to metadata.**  On every document and on every source text, strict
conversion fails exactly where relaxed conversion does, with the same error, and else its result is
the erasure of the relaxed one. -/
theorem strict_eq_erase_relaxed :
    (∀ ds : List Sdl.Definition,
      Sdl.convert .strict ds = (Sdl.convert .relaxed ds).map Schema.Document.erase) ∧
    ∀ source : String,
      convertSource .strict source = (convertSource .relaxed source).map Schema.Document.erase := by
  refine ⟨Sdl.convert_strict, fun source => ?_⟩
  unfold convertSource convertSourceReported
  cases Sdl.ofText? source with
  | none => rfl
  | some ds => exact Sdl.convert_strict ds

end SdlSchema
