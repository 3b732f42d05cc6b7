import SdlSchema.Json.Value

/-!
# The draft-07 meta-schema

Which JSON values are schemas.  A schema is a boolean or an object; the object
may have any members, but the values of keywords must be as the meta-schema
demands (`demand?`), and wherever it demands schemas the same holds of these.
The keywords are those of which a written schema makes use.
-/

namespace SdlSchema.Draft07

/-- What the value of a keyword must be. -/
inductive Demand where
  | text
  /-- The name of one of the types that a value can have. -/
  | typeName
  | schema
  /-- An array of at least one schema. -/
  | schemas
  /-- An object with a schema under each key. -/
  | schemaMap
  /-- An array of strings, none of them twice. -/
  | distinctTexts
  | list
  deriving DecidableEq, Repr

def demand? : String → Option Demand
  | "$schema" => some .text
  | "$ref" => some .text
  | "title" => some .text
  | "type" => some .typeName
  | "items" => some .schema
  | "allOf" => some .schemas
  | "oneOf" => some .schemas
  | "properties" => some .schemaMap
  | "definitions" => some .schemaMap
  | "required" => some .distinctTexts
  | "enum" => some .list
  | _ => none

def typeNames : List String :=
  ["array", "boolean", "integer", "null", "number", "object", "string"]

mutual

/-- Satisfies the meta-schema, and so does every schema inside. -/
inductive IsSchema : Json → Prop
  | bool (b : Bool) : IsSchema (.bool b)
  | object {ms : List (String × Json)} (h : ∀ m ∈ ms, Meets (demand? m.1) m.2) :
      IsSchema (.object ms)

/-- The value of a member is as its key demands. -/
inductive Meets : Option Demand → Json → Prop
  | free (v : Json) : Meets none v
  | text (s : String) : Meets (some .text) (.string s)
  | typeName {s : String} (h : s ∈ typeNames) : Meets (some .typeName) (.string s)
  | schema {v : Json} (h : IsSchema v) : Meets (some .schema) v
  | schemas {vs : List Json} (hne : vs ≠ []) (h : ∀ v ∈ vs, IsSchema v) :
      Meets (some .schemas) (.array vs)
  | schemaMap {ms : List (String × Json)} (h : ∀ m ∈ ms, IsSchema m.2) :
      Meets (some .schemaMap) (.object ms)
  | distinctTexts {ss : List String} (h : ss.Nodup) :
      Meets (some .distinctTexts) (.array (ss.map .string))
  | list (vs : List Json) : Meets (some .list) (.array vs)

end

/-! ## Inversion -/

@[simp] theorem isSchema_object {ms : List (String × Json)} :
    IsSchema (.object ms) ↔ ∀ m ∈ ms, Meets (demand? m.1) m.2 :=
  ⟨fun h => by cases h; assumption, .object⟩

@[simp] theorem meets_text (s : String) : Meets (some .text) (.string s) := .text s

@[simp] theorem meets_typeName {s : String} :
    Meets (some .typeName) (.string s) ↔ s ∈ typeNames :=
  ⟨fun h => by cases h; assumption, .typeName⟩

@[simp] theorem meets_schema {v : Json} : Meets (some .schema) v ↔ IsSchema v :=
  ⟨fun h => by cases h; assumption, .schema⟩

@[simp] theorem meets_schemas {vs : List Json} :
    Meets (some .schemas) (.array vs) ↔ vs ≠ [] ∧ ∀ v ∈ vs, IsSchema v :=
  ⟨fun h => by cases h; exact ⟨by assumption, by assumption⟩, fun h => .schemas h.1 h.2⟩

@[simp] theorem meets_schemaMap {ms : List (String × Json)} :
    Meets (some .schemaMap) (.object ms) ↔ ∀ m ∈ ms, IsSchema m.2 :=
  ⟨fun h => by cases h; assumption, .schemaMap⟩

/-- A map of schemas that is written from a list of entries. -/
theorem meets_schemaMap_map {α : Type} {f : α → Json} {es : List (String × α)} :
    Meets (some .schemaMap) (.object (es.map fun e => (e.1, f e.2))) ↔
      ∀ e ∈ es, IsSchema (f e.2) := by
  rw [meets_schemaMap]
  exact List.forall_mem_map

@[simp] theorem meets_distinctTexts {ss : List String} :
    Meets (some .distinctTexts) (.array (ss.map .string)) ↔ ss.Nodup := by
  refine ⟨fun h => ?_, .distinctTexts⟩
  generalize hvs : ss.map Json.string = vs at h
  cases h with
  | @distinctTexts ss' h' =>
    rwa [(List.map_inj_right fun _ _ => Json.string.inj).1 hvs]

@[simp] theorem meets_list (vs : List Json) : Meets (some .list) (.array vs) := .list vs

end SdlSchema.Draft07
