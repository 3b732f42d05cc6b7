import SdlSchema.Convert.Fragment
import SdlSchema.Convert.Value
import SdlSchema.Schema.Property

/-!
# The property of a field

A field whose type is a reference is composed with its name as title.  Only
relaxed mode lists arguments, and only if there are any; an input value has
none, and its default does not show.
-/

namespace SdlSchema.Sdl

open Schema (Argument Property PropertySchema)

namespace InputValue

/-- An argument with its default, if it declares one. -/
def toArgument (mode : Mode) (v : InputValue) : Argument :=
  ⟨v.name, v.type.toFragment mode, v.default?.map Const.toJson⟩

end InputValue

namespace Field

/-- The fragment of the type, under the name of the field if it is a reference. -/
def schema (mode : Mode) (f : Field) : PropertySchema :=
  let fragment := f.type.toFragment mode
  if fragment.isReference then .composed ⟨fragment, f.name⟩ else .inline fragment

/-- The arguments that the mode keeps. -/
def arguments? (mode : Mode) (f : Field) : Option (List Argument) :=
  match mode with
  | .relaxed =>
    if f.arguments.isEmpty then none else some (f.arguments.map fun v => v.toArgument mode)
  | .strict => none

/-- The property of a field. -/
def toProperty (mode : Mode) (f : Field) : Property :=
  ⟨f.schema mode, f.name, f.arguments? mode⟩

end Field

namespace InputValue

def toProperty (mode : Mode) (v : InputValue) : Property := v.toField.toProperty mode

end InputValue

end SdlSchema.Sdl
