import SdlSchema.Json.Value

/-!
# Type fragments

The part of a schema that stands for one type: a primitive type, a reference
to a definition, or an array.  Each level may carry a `required` marker of its
own.
-/

namespace SdlSchema.Schema

/-- The values of the keyword `type`. -/
inductive Primitive where
  | integer
  | number
  | string
  | boolean
  | array
  | object
  deriving DecidableEq, Repr

namespace Primitive

def name : Primitive → String
  | integer => "integer"
  | number => "number"
  | string => "string"
  | boolean => "boolean"
  | array => "array"
  | object => "object"

def ofName? : String → Option Primitive
  | "integer" => some integer
  | "number" => some number
  | "string" => some string
  | "boolean" => some boolean
  | "array" => some array
  | "object" => some object
  | _ => none

@[simp] theorem ofName?_name (p : Primitive) : ofName? p.name = some p := by cases p <;> rfl

end Primitive

/-- How an array holds the schema of its elements: under a `type` keyword, or directly. -/
inductive Items where
  | nested
  | direct
  deriving DecidableEq, Repr

namespace Items

/-- The value of the keyword `items` for the given element schema. -/
def wrap : Items → Json → Json
  | nested, element => .object [("type", element)]
  | direct, element => element

end Items

/-- The schema of a type, each level with a marker if it has one. -/
inductive Fragment where
  | primitive (type : Primitive) (required? : Option Bool)
  | reference (target : String) (required? : Option Bool)
  | array (items : Items) (element : Fragment) (required? : Option Bool)
  deriving DecidableEq, Repr

/-- The reference to the definition with the given name. -/
def pointer (name : String) : String := "#/definitions/" ++ name

namespace Fragment

/-- A primitive type without a marker. -/
def ofPrimitive (type : Primitive) : Fragment := primitive type none

/-- A reference to a definition, without a marker. -/
def ofDefinition (name : String) : Fragment := reference (pointer name) none

/-- An array of the given fragment, without a marker. -/
def arrayOf (items : Items) (element : Fragment) : Fragment := array items element none

/-- Sets the marker of the outermost level. -/
def withRequired (required : Bool) : Fragment → Fragment
  | primitive type _ => primitive type (some required)
  | reference target _ => reference target (some required)
  | array items element _ => array items element (some required)

/-- The fragment stands for a definition and is no list of it. -/
def isReference : Fragment → Bool
  | reference _ _ => true
  | _ => false

/-! ## As JSON -/

def requiredMember : Option Bool → List (String × Json)
  | none => []
  | some b => [("required", .bool b)]

/-- The members of the schema: what the type is, then the marker. -/
def members : Fragment → List (String × Json)
  | primitive type required? => ("type", .string type.name) :: requiredMember required?
  | reference target required? => ("$ref", .string target) :: requiredMember required?
  | array items element required? =>
    ("type", .string Primitive.array.name) :: ("items", items.wrap (.object element.members)) ::
      requiredMember required?

def toJson (f : Fragment) : Json := .object f.members

end Fragment

end SdlSchema.Schema
