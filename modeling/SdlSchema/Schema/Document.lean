import SdlSchema.Schema.Property
import SdlSchema.Table
import SdlSchema.Json.Text

/-!
# Schema documents

A document holds one definition for each name, in the order in which the names
first came.
-/

namespace SdlSchema.Schema

/-- The schema of an object, an interface or an input object. -/
structure ObjectDefinition where
  title : String
  type : Primitive
  properties : Table PropertyEntry
  required : List String
  /-- Marks an input object. -/
  input? : Option Bool

/-- The schema of one type. -/
inductive Definition where
  /-- A scalar, possibly with the marker that tells it from a schema of any value. -/
  | scalar (title : String) (marked : Bool)
  | union (title : String) (oneOf : List Fragment)
  | enum (title : String) (values : List String)
  | object (definition : ObjectDefinition)

namespace Definition

/-- The name of the type. -/
def title : Definition → String
  | scalar title _ => title
  | union title _ => title
  | enum title _ => title
  | object d => d.title

end Definition

/-- The identifier of a draft, and the definitions that are written in it. -/
structure Document where
  schema : String
  definitions : Table Definition

/-! ## As JSON -/

namespace ObjectDefinition

def toJson (d : ObjectDefinition) : Json :=
  .object (("title", .string d.title) :: ("type", .string d.type.name) ::
    ("properties", .object (d.properties.entries.map fun e => (e.1, e.2.toJson))) ::
    ("required", .array (d.required.map .string)) ::
    match d.input? with
    | none => []
    | some b => [("input", .bool b)])

end ObjectDefinition

namespace Definition

def toJson : Definition → Json
  | scalar title marked =>
    .object (("title", .string title) ::
      if marked then [("type", .string "GRAPHQL_SCALAR")] else [])
  | union title oneOf =>
    .object [("title", .string title), ("oneOf", .array (oneOf.map Fragment.toJson))]
  | enum title values =>
    .object [("title", .string title), ("enum", .array (values.map .string))]
  | object d => d.toJson

end Definition

namespace Document

def toJson (d : Document) : Json :=
  .object [("$schema", .string d.schema),
    ("definitions", .object (d.definitions.entries.map fun e => (e.1, e.2.toJson)))]

/-- The text of a document. -/
def text (style : Style) (d : Document) : String := d.toJson.text style

end Document

end SdlSchema.Schema
