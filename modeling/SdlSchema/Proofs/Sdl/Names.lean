import SdlSchema.Sdl.Definition
import SdlSchema.Sdl.Token

/-!
# The names of a document

Every name that is written in a definition: those of the definition itself, of
its members, values, fields and arguments, the name inside each type, and the
names in default values, at every depth.
-/

namespace SdlSchema.Sdl

/-- Letters, underscores and digits, of which a digit is not the first one. -/
def IsName (s : String) : Prop :=
  s.toList.head?.any Token.isNameStart = true ∧ s.toList.all Token.isNameChar = true

instance (s : String) : Decidable (IsName s) := inferInstanceAs (Decidable (_ ∧ _))

namespace Const

mutual

def names : Const → List String
  | .enum n => [n]
  | .variable n => [n]
  | .list es => namesOfElements es
  | .object fs => namesOfFields fs
  | _ => []

def namesOfElements : List Const → List String
  | [] => []
  | e :: es => e.names ++ namesOfElements es

def namesOfFields : List (String × Const) → List String
  | [] => []
  | (k, v) :: fs => k :: (v.names ++ namesOfFields fs)

end

end Const

def InputValue.names (v : InputValue) : List String :=
  v.name :: v.type.innermost :: (v.default?.map Const.names).getD []

def Field.names (f : Field) : List String :=
  f.name :: f.type.innermost :: f.arguments.flatMap InputValue.names

def Definition.names : Definition → List String
  | scalar name => [name]
  | object name fields => name :: fields.flatMap Field.names
  | interface name fields => name :: fields.flatMap Field.names
  | union name members => name :: members
  | enum name values => name :: values
  | input name fields => name :: fields.flatMap InputValue.names
  | directive d => d.name :: d.arguments.flatMap InputValue.names
  | _ => []

end SdlSchema.Sdl
