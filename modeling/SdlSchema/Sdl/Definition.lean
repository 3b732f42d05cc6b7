import SdlSchema.Decimal.Numeral

/-!
# GraphQL definitions

What a GraphQL document says, as far as a schema depends on it.  Descriptions,
interfaces and applied directives have no part in that and are left out, and
of definitions that have no counterpart in a schema only the kind is kept.
-/

namespace SdlSchema.Sdl

/-- A type as a field refers to it; each level may exclude null. -/
inductive TypeRef where
  | named (name : String) (nonNull : Bool)
  | list (element : TypeRef) (nonNull : Bool)
  deriving DecidableEq, Repr

namespace TypeRef

/-- The outermost level excludes null. -/
def isNonNull : TypeRef → Bool
  | named _ b => b
  | list _ b => b

/-- The name inside all lists. -/
def innermost : TypeRef → String
  | named n _ => n
  | list t _ => t.innermost

end TypeRef

/-- A value as it is written; an object may repeat a field name. -/
inductive Const where
  | null
  | boolean (b : Bool)
  | number (n : Decimal.Numeral)
  | string (s : String)
  | enum (name : String)
  | variable (name : String)
  | list (elements : List Const)
  | object (fields : List (String × Const))

/-- An argument or a field of an input object. -/
structure InputValue where
  name : String
  type : TypeRef
  default? : Option Const

/-- A field of an object or an interface. -/
structure Field where
  name : String
  type : TypeRef
  arguments : List InputValue

namespace InputValue

/-- An input value as a field that takes no arguments. -/
def toField (v : InputValue) : Field := ⟨v.name, v.type, []⟩

end InputValue

/-! ## Kinds of definitions -/

/-- The kinds of types. -/
inductive TypeKind where
  | scalar
  | object
  | interface
  | union
  | enum
  | input
  deriving DecidableEq, Repr

namespace TypeKind

/-- The kind with its article. -/
def phrase : TypeKind → String
  | scalar => "a scalar type"
  | object => "an object type"
  | interface => "an interface type"
  | union => "a union type"
  | enum => "an enum type"
  | input => "an input object type"

end TypeKind

/-- What a definition defines or extends. -/
inductive Kind where
  | operation
  | fragment
  | directive
  | schema
  | schemaExtension
  | type (kind : TypeKind)
  | typeExtension (kind : TypeKind)
  deriving DecidableEq, Repr

namespace Kind

/-- The kind as an error message names it. -/
def phrase : Kind → String
  | operation => "an operation definition"
  | fragment => "a fragment definition"
  | directive => "a directive definition"
  | schema => "a schema definition"
  | schemaExtension => "a schema extension"
  | type k => k.phrase ++ " definition"
  | typeExtension k => k.phrase ++ " extension"

end Kind

/-! ## Definitions -/

/-- The places where a directive may stand. -/
inductive Location where
  | query
  | mutation
  | subscription
  | field
  | fragmentDefinition
  | fragmentSpread
  | inlineFragment
  | variableDefinition
  | schema
  | scalar
  | object
  | fieldDefinition
  | argumentDefinition
  | interface
  | union
  | enum
  | enumValue
  | inputObject
  | inputFieldDefinition
  deriving DecidableEq, Repr

namespace Location

def name : Location → String
  | query => "QUERY"
  | mutation => "MUTATION"
  | subscription => "SUBSCRIPTION"
  | field => "FIELD"
  | fragmentDefinition => "FRAGMENT_DEFINITION"
  | fragmentSpread => "FRAGMENT_SPREAD"
  | inlineFragment => "INLINE_FRAGMENT"
  | variableDefinition => "VARIABLE_DEFINITION"
  | schema => "SCHEMA"
  | scalar => "SCALAR"
  | object => "OBJECT"
  | fieldDefinition => "FIELD_DEFINITION"
  | argumentDefinition => "ARGUMENT_DEFINITION"
  | interface => "INTERFACE"
  | union => "UNION"
  | enum => "ENUM"
  | enumValue => "ENUM_VALUE"
  | inputObject => "INPUT_OBJECT"
  | inputFieldDefinition => "INPUT_FIELD_DEFINITION"

def all : List Location :=
  [query, mutation, subscription, field, fragmentDefinition, fragmentSpread, inlineFragment,
    variableDefinition, schema, scalar, object, fieldDefinition, argumentDefinition, interface,
    union, enum, enumValue, inputObject, inputFieldDefinition]

def ofName? (s : String) : Option Location := all.find? fun l => l.name = s

@[simp] theorem ofName?_name (l : Location) : ofName? l.name = some l := by cases l <;> rfl

end Location

/-- A directive with the places where it may stand. -/
structure DirectiveDefinition where
  name : String
  arguments : List InputValue
  repeatable : Bool
  locations : List Location

/-- One definition of a document. -/
inductive Definition where
  | scalar (name : String)
  | object (name : String) (fields : List Field)
  | interface (name : String) (fields : List Field)
  | union (name : String) (members : List String)
  | enum (name : String) (values : List String)
  | input (name : String) (fields : List InputValue)
  | directive (definition : DirectiveDefinition)
  | schema
  | schemaExtension
  | typeExtension (kind : TypeKind)
  | operation
  | fragment

namespace Definition

/-- What the definition defines or extends. -/
def kind : Definition → Kind
  | scalar _ => .type .scalar
  | object _ _ => .type .object
  | interface _ _ => .type .interface
  | union _ _ => .type .union
  | enum _ _ => .type .enum
  | input _ _ => .type .input
  | directive _ => .directive
  | schema => .schema
  | schemaExtension => .schemaExtension
  | typeExtension k => .typeExtension k
  | operation => .operation
  | fragment => .fragment

def isDirective : Definition → Bool
  | directive _ => true
  | _ => false

end Definition

end SdlSchema.Sdl
