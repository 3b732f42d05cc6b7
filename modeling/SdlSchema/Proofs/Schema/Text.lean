import SdlSchema.Schema.Document
import SdlSchema.Proofs.Json.Unambiguous
import SdlSchema.Proofs.Schema.Fragment

/-!
# A document is determined by its text

Every record goes to an object that tells it apart from all other records of
its kind, although the kinds of definitions and of properties carry no tag: the
first key in which two of them differ decides.  With `Json.text_injective` the
text of a document therefore determines it, and by `Json.wellFormed_text` it is
well-formed.
-/

namespace SdlSchema.Schema

open Function (Injective)

/-! ## Properties -/

namespace AllOf

theorem toJson_injective : Injective toJson := by
  intro a a' h
  obtain ⟨reference, title⟩ := a
  obtain ⟨reference', title'⟩ := a'
  simp only [toJson, Json.array.injEq, List.cons.injEq, Json.object.injEq, Prod.mk.injEq,
    Json.string.injEq, true_and, and_true] at h
  obtain ⟨hreference, rfl⟩ := h
  rw [Fragment.toJson_injective hreference]

theorem distinct_toJson (a : AllOf) : a.toJson.Distinct := by
  simp [toJson, Json.distinct_array, Json.distinct_object, a.reference.distinct_toJson]

end AllOf

namespace Argument

theorem toJson_eq (a : Argument) : a.toJson = .object (("title", .string a.title) ::
    ("type", a.type.toJson) :: optionalMember "defaultValue" CanonicalJson.json a.default?) := by
  rw [toJson]
  cases a.default? <;> rfl

theorem toJson_injective : Injective toJson := by
  intro a a' h
  obtain ⟨title, type, default?⟩ := a
  obtain ⟨title', type', default?'⟩ := a'
  simp only [toJson_eq, Json.object.injEq, List.cons.injEq, Prod.mk.injEq, Json.string.injEq,
    true_and] at h
  obtain ⟨rfl, htype, hdefault⟩ := h
  rw [Fragment.toJson_injective htype, optionalMember_injective _ json_injective hdefault]

theorem distinct_toJson (a : Argument) : a.toJson.Distinct := by
  have hdefault := distinct_optionalMember "defaultValue" distinct_json a.default?
  have hkeys := keys_optionalMember "defaultValue" CanonicalJson.json a.default?
  rw [toJson_eq, Json.distinct_object]
  refine ⟨((hkeys.cons_cons "type").cons_cons "title").nodup (by decide), ?_⟩
  simpa [a.type.distinct_toJson] using hdefault

end Argument

namespace PropertySchema

theorem members_injective : Injective members := by
  have hallOf (f : Fragment) (a : AllOf) : f.members ≠ [("allOf", a.toJson)] := by
    cases f <;> simp [Fragment.members]
  intro s s' h
  cases s with
  | inline f =>
    cases s' with
    | inline f' => rw [Fragment.members_injective h]
    | composed a' => exact absurd h (hallOf f a')
  | composed a =>
    cases s' with
    | inline f' => exact absurd h.symm (hallOf f' a)
    | composed a' =>
      have hjson : a.toJson = a'.toJson := (Prod.mk.inj (List.cons.inj h).1).2
      rw [AllOf.toJson_injective hjson]

theorem keys_members (s : PropertySchema) :
    (s.members.map Prod.fst).Sublist ["allOf", "type", "$ref", "items", "required"] := by
  cases s with
  | inline f => exact f.keys_members.cons _
  | composed a => exact (List.nil_sublist _).cons_cons _

theorem title_notMem_keys (s : PropertySchema) : "title" ∉ s.members.map Prod.fst := fun h =>
  absurd (s.keys_members.subset h) (by decide)

theorem distinct_members (s : PropertySchema) : ∀ m ∈ s.members, m.2.Distinct := by
  cases s with
  | inline f => exact (Json.distinct_object.1 f.distinct_toJson).2
  | composed a => simp [members, a.distinct_toJson]

end PropertySchema

namespace Property

theorem toJson_eq (p : Property) : p.toJson = .object (p.schema.members ++
    ("title", .string p.title) ::
      optionalMember "arguments" (fun as => .array (as.map Argument.toJson)) p.arguments?) := by
  rw [toJson]
  cases p.arguments? <;> rfl

theorem toJson_injective : Injective toJson := by
  intro p p' h
  obtain ⟨schema, title, arguments?⟩ := p
  obtain ⟨schema', title', arguments?'⟩ := p'
  simp only [toJson_eq, Json.object.injEq] at h
  obtain ⟨hschema, htitle, harguments⟩ := append_entry_inj schema.title_notMem_keys
    schema'.title_notMem_keys h
  rw [PropertySchema.members_injective hschema, Json.string.inj htitle,
    optionalMember_injective _ (array_map_injective Argument.toJson_injective) harguments]

theorem distinct_toJson (p : Property) : p.toJson.Distinct := by
  have harguments := distinct_optionalMember "arguments"
    (distinct_map Argument.distinct_toJson) p.arguments?
  have hkeys := p.schema.keys_members.append ((keys_optionalMember "arguments"
    (fun as => .array (as.map Argument.toJson)) p.arguments?).cons_cons "title")
  rw [toJson_eq, Json.distinct_object, List.map_append]
  refine ⟨hkeys.nodup (by decide), ?_⟩
  simp only [List.mem_append, List.mem_cons]
  rintro m (hm | rfl | hm)
  · exact p.schema.distinct_members m hm
  · exact Json.distinct_string p.title
  · exact harguments m hm

end Property

namespace PropertyEntry

/-- A property has a title behind its composition. -/
theorem toJson_field_ne (p : Property) (a : AllOf) : (field p).toJson ≠ (allOf a).toJson := by
  intro h
  have hmem : "title" ∈ [("allOf", a.toJson)].map Prod.fst := by
    rw [← Json.object.inj h]
    simp
  exact absurd hmem (by simp)

theorem toJson_injective : Injective toJson := by
  intro e e' h
  cases e with
  | field p =>
    cases e' with
    | field p' => rw [Property.toJson_injective h]
    | allOf a' => exact absurd h (toJson_field_ne p a')
  | allOf a =>
    cases e' with
    | field p' => exact absurd h.symm (toJson_field_ne p' a)
    | allOf a' =>
      have hjson : a.toJson = a'.toJson := (Prod.mk.inj (List.cons.inj (Json.object.inj h)).1).2
      rw [AllOf.toJson_injective hjson]

theorem distinct_toJson (e : PropertyEntry) : e.toJson.Distinct := by
  cases e with
  | field p => exact p.distinct_toJson
  | allOf a => simp [toJson, Json.distinct_object, a.distinct_toJson]

end PropertyEntry

/-! ## Definitions -/

namespace ObjectDefinition

theorem toJson_eq (d : ObjectDefinition) : d.toJson = .object (("title", .string d.title) ::
    ("type", .string d.type.name) ::
    ("properties", .object (d.properties.entries.map fun e => (e.1, e.2.toJson))) ::
    ("required", .array (d.required.map .string)) :: optionalMember "input" .bool d.input?) := by
  rw [toJson]
  cases d.input? <;> rfl

theorem toJson_injective : Injective toJson := by
  intro d d' h
  obtain ⟨title, type, properties, required, input?⟩ := d
  obtain ⟨title', type', properties', required', input?'⟩ := d'
  simp only [toJson_eq, Json.object.injEq, List.cons.injEq, Prod.mk.injEq, Json.string.injEq,
    true_and] at h
  obtain ⟨rfl, htype, hproperties, hrequired, hinput⟩ := h
  rw [Primitive.name_injective htype,
    entries_map_injective PropertyEntry.toJson_injective hproperties,
    array_map_injective string_injective hrequired,
    optionalMember_injective _ bool_injective hinput]

theorem distinct_toJson (d : ObjectDefinition) : d.toJson.Distinct := by
  have hproperties := distinct_entries PropertyEntry.distinct_toJson d.properties
  have hrequired := distinct_map Json.distinct_string d.required
  have hinput := distinct_optionalMember "input" Json.distinct_bool d.input?
  have hkeys := ((keys_optionalMember "input" Json.bool d.input?).cons_cons "required").cons_cons
    "properties"
  rw [toJson_eq, Json.distinct_object]
  refine ⟨((hkeys.cons_cons "type").cons_cons "title").nodup (by decide), ?_⟩
  simpa [hproperties, hrequired] using hinput

end ObjectDefinition

namespace Definition

theorem toJson_injective : Injective toJson := by
  intro d d' h
  cases d with
  | scalar title marked =>
    cases d' with
    | scalar title' marked' => cases marked <;> cases marked' <;> simp_all [toJson]
    | union title' oneOf' => cases marked <;> simp [toJson] at h
    | enum title' values' => cases marked <;> simp [toJson] at h
    | object d' => cases marked <;> simp [toJson, ObjectDefinition.toJson] at h
  | union title oneOf =>
    cases d' with
    | scalar title' marked' => cases marked' <;> simp [toJson] at h
    | union title' oneOf' =>
      simp only [toJson, Json.object.injEq, List.cons.injEq, Prod.mk.injEq, Json.string.injEq,
        true_and, and_true] at h
      rw [h.1, array_map_injective Fragment.toJson_injective h.2]
    | enum title' values' => simp [toJson] at h
    | object d' => simp [toJson, ObjectDefinition.toJson] at h
  | enum title values =>
    cases d' with
    | scalar title' marked' => cases marked' <;> simp [toJson] at h
    | union title' oneOf' => simp [toJson] at h
    | enum title' values' =>
      simp only [toJson, Json.object.injEq, List.cons.injEq, Prod.mk.injEq, Json.string.injEq,
        true_and, and_true] at h
      rw [h.1, array_map_injective string_injective h.2]
    | object d' => simp [toJson, ObjectDefinition.toJson] at h
  | object d =>
    cases d' with
    | scalar title' marked' => cases marked' <;> simp [toJson, ObjectDefinition.toJson] at h
    | union title' oneOf' => simp [toJson, ObjectDefinition.toJson] at h
    | enum title' values' => simp [toJson, ObjectDefinition.toJson] at h
    | object d' => rw [ObjectDefinition.toJson_injective h]

theorem distinct_toJson (d : Definition) : d.toJson.Distinct := by
  cases d with
  | scalar title marked => cases marked <;> simp [toJson, Json.distinct_object]
  | union title oneOf =>
    have honeOf := distinct_map Fragment.distinct_toJson oneOf
    simp [toJson, Json.distinct_object, honeOf]
  | enum title values =>
    have hvalues := distinct_map Json.distinct_string values
    simp [toJson, Json.distinct_object, hvalues]
  | object d => exact d.distinct_toJson

end Definition

/-! ## Documents -/

namespace Document

theorem toJson_injective : Injective toJson := by
  intro d d' h
  obtain ⟨schema, definitions⟩ := d
  obtain ⟨schema', definitions'⟩ := d'
  simp only [toJson, Json.object.injEq, List.cons.injEq, Prod.mk.injEq, Json.string.injEq,
    true_and, and_true] at h
  obtain ⟨rfl, hdefinitions⟩ := h
  rw [entries_map_injective Definition.toJson_injective hdefinitions]

theorem distinct_toJson (d : Document) : d.toJson.Distinct := by
  have hdefinitions := distinct_entries Definition.distinct_toJson d.definitions
  simp [toJson, Json.distinct_object, hdefinitions]

/-- In either style a document has a well-formed text without repeated keys, and no other document
has the same. -/
theorem text_unambiguous (style : Style) :
    (∀ d : Document, Json.WellFormed (d.text style)) ∧ Injective (text style) :=
  ⟨fun d => Json.wellFormed_text style d.distinct_toJson,
    (Json.text_injective style).comp toJson_injective⟩

end Document

end SdlSchema.Schema
