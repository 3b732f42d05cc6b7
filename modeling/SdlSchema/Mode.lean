/-!
# Output modes

Relaxed output is a draft-04 schema that keeps what GraphQL knows and JSON
Schema does not; strict output is a plain draft-07 schema.
-/

namespace SdlSchema

/-- How much of what GraphQL knows the output keeps. -/
inductive Mode where
  | relaxed
  | strict
  deriving DecidableEq, Repr, Inhabited

namespace Mode

def isStrict : Mode → Bool
  | relaxed => false
  | strict => true

def ofBool (strict : Bool) : Mode := if strict then .strict else .relaxed

def name : Mode → String
  | relaxed => "relaxed"
  | strict => "strict"

/-- The mode with a name, which is lower case. -/
def ofName? : String → Option Mode
  | "relaxed" => some relaxed
  | "strict" => some strict
  | _ => none

/-- The identifier of the JSON Schema draft that the mode writes. -/
def schemaUri : Mode → String
  | relaxed => "http://json-schema.org/draft-04/schema#"
  | strict => "http://json-schema.org/draft-07/schema#"

end Mode

end SdlSchema
