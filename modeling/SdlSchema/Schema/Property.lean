import SdlSchema.Schema.Fragment

/-!
# Properties

A field becomes a property: its type, its name as title, and the arguments it
takes.  In an object a property whose type is a reference is kept as an `allOf`
of the reference and the title, and nothing beside it, because keywords next to
a reference are ignored.
-/

namespace SdlSchema.Schema

/-- A reference with a title of its own. -/
structure AllOf where
  reference : Fragment
  title : String

/-- What a property says of its type: a fragment, or a reference with a title beside it. -/
inductive PropertySchema where
  | inline (fragment : Fragment)
  | composed (allOf : AllOf)

/-- An argument without a default is not one whose default is null. -/
structure Argument where
  title : String
  type : Fragment
  default? : Option CanonicalJson

/-- All that is known of a field. -/
structure Property where
  schema : PropertySchema
  title : String
  arguments? : Option (List Argument)

/-- A property as an object holds it. -/
inductive PropertyEntry where
  | field (property : Property)
  | allOf (allOf : AllOf)

namespace PropertyEntry

/-- Keeps only the composition of a composed property. -/
def ofProperty (p : Property) : PropertyEntry :=
  match p.schema with
  | .composed a => allOf a
  | .inline _ => field p

end PropertyEntry

/-! ## As JSON -/

namespace AllOf

def toJson (a : AllOf) : Json :=
  .array [a.reference.toJson, .object [("title", .string a.title)]]

end AllOf

namespace Argument

def toJson (a : Argument) : Json :=
  .object (("title", .string a.title) :: ("type", a.type.toJson) ::
    match a.default? with
    | none => []
    | some v => [("defaultValue", v.json)])

end Argument

namespace PropertySchema

def members : PropertySchema → List (String × Json)
  | inline f => f.members
  | composed a => [("allOf", a.toJson)]

end PropertySchema

namespace Property

def toJson (p : Property) : Json :=
  .object (p.schema.members ++ ("title", .string p.title) ::
    match p.arguments? with
    | none => []
    | some as => [("arguments", .array (as.map Argument.toJson))])

end Property

namespace PropertyEntry

def toJson : PropertyEntry → Json
  | field p => p.toJson
  | allOf a => .object [("allOf", a.toJson)]

end PropertyEntry

end SdlSchema.Schema
