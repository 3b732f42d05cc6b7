import SdlSchema.Proofs.Convert.Erasure
import SdlSchema.Proofs.Draft07

/-!
# When strict output is a draft-07 schema

Types and properties always become schemas.  What the meta-schema can object to
in a definition is a union without members, whose `oneOf` is empty, and an
object with two non-null fields of one name, which stands twice in `required`.
So a strict document is a draft-07 schema exactly if no definition that was
kept is of this kind (`strict_isSchema_iff`).
-/

namespace SdlSchema.Schema

open Draft07

/-! ## Fragments and properties -/

theorem name_mem_typeNames (p : Primitive) : p.name ∈ typeNames := by
  cases p <;> decide

/-- An erased fragment meets the demands on every keyword of it. -/
theorem Fragment.meets_members_erase (f : Fragment) :
    ∀ m ∈ f.erase.members, Meets (demand? m.1) m.2 := by
  induction f with
  | primitive type _ =>
    simp [erase, members, requiredMember, demand?, name_mem_typeNames]
  | reference target _ => simp [erase, members, requiredMember, demand?]
  | array items element _ ih =>
    simpa [erase, members, requiredMember, demand?, Items.wrap, name_mem_typeNames] using ih

theorem Fragment.isSchema_erase (f : Fragment) : IsSchema f.erase.toJson :=
  isSchema_object.2 f.meets_members_erase

theorem AllOf.meets_erase (a : AllOf) : Meets (some .schemas) a.erase.toJson := by
  simp [toJson, erase, Fragment.isSchema_erase, demand?]

theorem PropertyEntry.isSchema_erase (e : PropertyEntry) : IsSchema e.erase.toJson := by
  cases e with
  | allOf a => simp [erase, toJson, demand?, AllOf.meets_erase]
  | field p =>
    obtain ⟨schema, title, arguments?⟩ := p
    cases schema with
    | inline f =>
      refine isSchema_object.2 fun m hm => ?_
      rcases List.mem_append.1 hm with hm | hm
      · exact f.meets_members_erase m hm
      · rw [List.mem_singleton.1 hm]
        exact meets_text title
    | composed a =>
      simp [erase, toJson, Property.erase, Property.toJson, PropertySchema.erase,
        PropertySchema.members, demand?, AllOf.meets_erase]

/-! ## Definitions and documents -/

namespace Definition

/-- A union has members, and an object requires no name twice. -/
def Proper : Definition → Prop
  | scalar _ _ => True
  | union _ oneOf => oneOf ≠ []
  | enum _ _ => True
  | object d => d.required.Nodup

theorem isSchema_erase_iff (d : Definition) : IsSchema d.erase.toJson ↔ d.Proper := by
  cases d with
  | scalar title marked => simp [erase, toJson, Proper, demand?]
  | union title oneOf => simp [erase, toJson, Proper, demand?, Fragment.isSchema_erase]
  | enum title values => simp [erase, toJson, Proper, demand?]
  | object d =>
    have hproperties : Meets (some .schemaMap)
        (.object ((d.properties.map PropertyEntry.erase).entries.map fun e =>
          (e.1, e.2.toJson))) := by
      refine meets_schemaMap_map.2 fun e he => ?_
      obtain ⟨e, -, rfl⟩ := List.mem_map.1 he
      exact e.2.isSchema_erase
    simp [erase, toJson, Proper, demand?, ObjectDefinition.toJson, ObjectDefinition.erase,
      name_mem_typeNames, hproperties, -meets_schemaMap]

end Definition

/-- Whatever was erased, a document is a schema exactly if its definitions are proper. -/
theorem Document.isSchema_erase_iff (d : Document) :
    IsSchema d.erase.toJson ↔ ∀ e ∈ d.definitions.entries, e.2.Proper := by
  have hdefinitions : Meets (some .schemaMap)
      (.object (d.erase.definitions.entries.map fun e => (e.1, e.2.toJson))) ↔
        ∀ e ∈ d.definitions.entries, e.2.Proper := by
    rw [meets_schemaMap_map]
    refine List.forall_mem_map.trans (forall₂_congr fun e _ => ?_)
    exact e.2.isSchema_erase_iff
  simp [toJson, demand?, hdefinitions, -meets_schemaMap]

end SdlSchema.Schema

namespace SdlSchema.Sdl

open Draft07

/-! ## Source documents -/

namespace Definition

def fields : Definition → List Field
  | object _ fields => fields
  | interface _ fields => fields
  | input _ fields => fields.map InputValue.toField
  | _ => []

/-- The names of the fields that exclude null, in the order of the fields. -/
def nonNullNames (d : Definition) : List String :=
  (d.fields.filter fun f => f.type.isNonNull).map Field.name

/-- The definition is no union without members, and no two of its non-null fields share a name. -/
def Proper (d : Definition) : Prop :=
  (∀ name members, d = union name members → members ≠ []) ∧ d.nonNullNames.Nodup

theorem proper_toSchema_iff {mode : Mode} {d : Definition} {s : Schema.Definition}
    (h : d.toSchema mode = .ok s) : s.Proper ↔ d.Proper := by
  cases d <;> cases h <;>
    simp [Schema.Definition.Proper, Proper, nonNullNames, fields, objectSchema]

end Definition

/-- A strict document is a draft-07 schema exactly if each definition that was kept, which is the
last one of its name, is proper. -/
theorem strict_isSchema_iff {ds : List Definition} {doc : Schema.Document}
    (h : convert .strict ds = .ok doc) :
    IsSchema doc.toJson ↔
      ∀ name d, lastNamed? name (nonDirectives ds) = some d → d.Proper := by
  rw [convert_strict] at h
  cases hr : convert .relaxed ds with
  | error e => rw [hr] at h; cases h
  | ok relaxed =>
    rw [hr] at h
    cases h
    rw [Schema.Document.isSchema_erase_iff]
    constructor
    · intro hproper name d hd
      obtain ⟨s, hs, -⟩ :=
        Definition.toSchema_of_typeName? .relaxed (typeName?_of_lastNamed? hd)
      have hget : relaxed.definitions.get? name = some s :=
        (get?_eq_some_iff hr).2 ⟨d, hd, hs⟩
      exact (Definition.proper_toSchema_iff hs).1 (hproper _ (Table.mem_entries_iff.2 hget))
    · rintro hproper ⟨name, s⟩ he
      obtain ⟨d, hd, hs⟩ := (get?_eq_some_iff hr).1 (Table.mem_entries_iff.1 he)
      exact (Definition.proper_toSchema_iff hs).2 (hproper name d hd)

/-- A union without members does no harm if it was replaced; two non-null fields of one name
do. -/
theorem strict_isSchema_iff_of_replaced :
    let ds : List Definition := [.union "U" [], .enum "U" ["A"],
      .object "T" [⟨"f", .named "Int" true, []⟩, ⟨"f", .named "U" true, []⟩]]
    ∃ doc, convert .strict ds = .ok doc ∧ (IsSchema doc.toJson ↔
      ∀ name d, lastNamed? name (nonDirectives ds) = some d → d.Proper) :=
  ⟨_, rfl, strict_isSchema_iff rfl⟩

end SdlSchema.Sdl
