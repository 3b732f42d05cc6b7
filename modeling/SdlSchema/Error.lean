import SdlSchema.Sdl.Definition

/-!
# Errors of the conversion
-/

namespace SdlSchema

/-- The kinds of JSON values that are no source text. -/
inductive NonText where
  | null
  | boolean
  | number
  | array
  | object
  deriving DecidableEq, Repr

namespace NonText

/-- The kind with its article. -/
def phrase : NonText → String
  | null => "null"
  | boolean => "a boolean"
  | number => "a number"
  | array => "an array"
  | object => "an object"

end NonText

/-- Why a source has no schema. -/
inductive Error where
  /-- The source is not a string. -/
  | notText (found : NonText)
  /-- The source is not a GraphQL document. -/
  | unparsable
  /-- The document holds a definition that has no counterpart in a schema. -/
  | unknownKind (kind : Sdl.Kind)
  deriving DecidableEq, Repr

namespace Error

/-- The text that is shown for an error. -/
def message : Error → String
  | notText found => "GraphQL schema must be a string, got " ++ found.phrase
  | unparsable => "Could not parse GraphQL schema"
  | unknownKind kind => "Cannot convert " ++ kind.phrase ++ " into JSON Schema"

end Error

end SdlSchema
