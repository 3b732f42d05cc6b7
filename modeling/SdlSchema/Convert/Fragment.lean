import SdlSchema.Mode
import SdlSchema.Schema.Fragment
import SdlSchema.Sdl.Definition

/-!
# The fragment of a type

The five built-in names are primitive types, every other name is a reference.
In relaxed mode non-null levels are marked as required, nullable built-in names
as not required, and elements stand under a `type` keyword; strict mode has no
markers.
-/

namespace SdlSchema

open Schema (Fragment Primitive Items)

/-- The primitive type of a built-in name. -/
def builtIn? : String → Option Primitive
  | "Int" => some .integer
  | "Float" => some .number
  | "String" => some .string
  | "ID" => some .string
  | "Boolean" => some .boolean
  | _ => none

namespace Mode

/-- How arrays hold their elements. -/
def items : Mode → Items
  | relaxed => .nested
  | strict => .direct

/-- The fragment of a name that may be null. -/
def named (mode : Mode) (name : String) : Fragment :=
  match builtIn? name, mode with
  | some p, relaxed => (Fragment.ofPrimitive p).withRequired false
  | some p, strict => .ofPrimitive p
  | none, _ => .ofDefinition name

/-- Marks a level that excludes null. -/
def markNonNull (mode : Mode) (nonNull : Bool) (f : Fragment) : Fragment :=
  match mode with
  | relaxed => if nonNull then f.withRequired true else f
  | strict => f

end Mode

namespace Sdl.TypeRef

/-- The fragment of a type, level by level. -/
def toFragment (mode : Mode) : TypeRef → Fragment
  | named n nonNull => mode.markNonNull nonNull (mode.named n)
  | list t nonNull => mode.markNonNull nonNull (.arrayOf mode.items (t.toFragment mode))

end Sdl.TypeRef

end SdlSchema
