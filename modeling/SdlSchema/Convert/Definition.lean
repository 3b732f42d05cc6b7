import SdlSchema.Convert.Property
import SdlSchema.Error
import SdlSchema.Schema.Document

/-!
# The schema of a definition

Of two fields with one name the later one gives the property and the earlier
one its place, while the list of required names keeps every non-null field.
-/

namespace SdlSchema.Sdl

/-- The object schema of a list of fields. -/
def objectSchema (mode : Mode) (title : String) (fields : List Field) (isInput : Bool) :
    Schema.ObjectDefinition where
  title := title
  type := .object
  properties := Table.ofList (fields.map fun f =>
    (f.name, Schema.PropertyEntry.ofProperty (f.toProperty mode)))
  required := (fields.filter fun f => f.type.isNonNull).map Field.name
  input? := if isInput && !mode.isStrict then some true else none

namespace Definition

/-- The schema of a definition, if its kind has one. -/
def toSchema (mode : Mode) : Definition → Except Error Schema.Definition
  | scalar name => .ok (.scalar name (!mode.isStrict))
  | union name members => .ok (.union name (members.map mode.named))
  | enum name values => .ok (.enum name values)
  | object name fields => .ok (.object (objectSchema mode name fields false))
  | interface name fields => .ok (.object (objectSchema mode name fields false))
  | input name fields =>
    .ok (.object (objectSchema mode name (fields.map InputValue.toField) true))
  | d => .error (.unknownKind d.kind)

end Definition

end SdlSchema.Sdl
