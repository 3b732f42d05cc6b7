import SdlSchema.Sdl.Document

/-!
# Definitions as tokens

How a document is written, token by token: no descriptions, no applied
directives, and no brackets around nothing.  Only the separators in front of
the members of a union and of the locations of a directive may be written or
left out.

`Definition.IsWritable` says which definitions the grammar has tokens for.
-/

namespace SdlSchema.Sdl

/-! ## Types -/

def bangTokens (nonNull : Bool) : List Token := if nonNull then [.punct .bang] else []

namespace TypeRef

/-- The number of lists around the name. -/
def depth : TypeRef → Nat
  | named _ _ => 0
  | list t _ => t.depth + 1

def tokens : TypeRef → List Token
  | named n nonNull => .name n :: bangTokens nonNull
  | list t nonNull => .punct .bracketL :: (t.tokens ++ .punct .bracketR :: bangTokens nonNull)

end TypeRef

/-! ## Constants -/

namespace Const

mutual

/-- The number of containers around the innermost value. -/
def depth : Const → Nat
  | .list es => depthOfElements es
  | .object fs => depthOfFields fs
  | _ => 0

def depthOfElements : List Const → Nat
  | [] => 0
  | e :: es => max (e.depth + 1) (depthOfElements es)

def depthOfFields : List (String × Const) → Nat
  | [] => 0
  | (_, v) :: fs => max (v.depth + 1) (depthOfFields fs)

end

mutual

/-- There are no variables in the value, and no enum value has the name of another constant. -/
def IsConstant : Const → Prop
  | .enum n => Grammar.isEnumName n = true
  | .variable _ => False
  | .list es => AreConstant es
  | .object fs => AreConstantFields fs
  | _ => True

def AreConstant : List Const → Prop
  | [] => True
  | e :: es => e.IsConstant ∧ AreConstant es

def AreConstantFields : List (String × Const) → Prop
  | [] => True
  | (_, v) :: fs => v.IsConstant ∧ AreConstantFields fs

end

mutual

def tokens : Const → List Token
  | .null => [.name "null"]
  | .boolean b => [.name (if b then "true" else "false")]
  | .number n => [.number n]
  | .string s => [.string s]
  | .enum n => [.name n]
  | .variable n => [.punct .dollar, .name n]
  | .list es => .punct .bracketL :: (tokensOfElements es ++ [.punct .bracketR])
  | .object fs => .punct .braceL :: (tokensOfFields fs ++ [.punct .braceR])

def tokensOfElements : List Const → List Token
  | [] => []
  | e :: es => e.tokens ++ tokensOfElements es

def tokensOfFields : List (String × Const) → List Token
  | [] => []
  | (k, v) :: fs => .name k :: .punct .colon :: v.tokens ++ tokensOfFields fs

end

end Const

/-! ## Lists -/

/-- Items in brackets; without items there are no brackets. -/
def blockTokens (opening closing : Punctuator) : List (List Token) → List Token
  | [] => []
  | items => .punct opening :: (items.flatten ++ [.punct closing])

/-- Tokens with a separator between them, and possibly one before the first. -/
def separatedTokens (separator : Punctuator) (lead : Bool) : List Token → List Token
  | [] => []
  | t :: ts => (if lead then [.punct separator] else []) ++
      t :: ts.flatMap fun t => [.punct separator, t]

/-! ## Definitions -/

def defaultTokens : Option Const → List Token
  | none => []
  | some c => .punct .equals :: c.tokens

namespace InputValue

def tokens (v : InputValue) : List Token :=
  .name v.name :: .punct .colon :: (v.type.tokens ++ defaultTokens v.default?)

/-- Neither the type nor the default is nested too deeply, and the default is a constant. -/
def IsWritable (v : InputValue) : Prop :=
  v.type.depth ≤ nestingLimit ∧ ∀ c ∈ v.default?, c.IsConstant ∧ c.depth ≤ nestingLimit

end InputValue

namespace Field

def tokens (f : Field) : List Token :=
  .name f.name :: (blockTokens .parenL .parenR (f.arguments.map InputValue.tokens) ++
    .punct .colon :: f.type.tokens)

def IsWritable (f : Field) : Prop :=
  f.type.depth ≤ nestingLimit ∧ ∀ v ∈ f.arguments, v.IsWritable

end Field

def memberTokens (lead : Bool) : List String → List Token
  | [] => []
  | members => .punct .equals :: separatedTokens .pipe lead (members.map .name)

namespace DirectiveDefinition

def tokens (lead : Bool) (d : DirectiveDefinition) : List Token :=
  .name "directive" :: .punct .atSign :: .name d.name ::
    (blockTokens .parenL .parenR (d.arguments.map InputValue.tokens) ++
      ((if d.repeatable then [.name "repeatable"] else []) ++
        .name "on" :: separatedTokens .pipe lead (d.locations.map fun l => .name l.name)))

end DirectiveDefinition

namespace Definition

/-- The tokens of a definition of a type or a directive. -/
def tokens (lead : Bool) : Definition → List Token
  | scalar name => [.name "scalar", .name name]
  | object name fields =>
    .name "type" :: .name name :: blockTokens .braceL .braceR (fields.map Field.tokens)
  | interface name fields =>
    .name "interface" :: .name name :: blockTokens .braceL .braceR (fields.map Field.tokens)
  | union name members => .name "union" :: .name name :: memberTokens lead members
  | enum name values =>
    .name "enum" :: .name name :: blockTokens .braceL .braceR (values.map fun v => [.name v])
  | input name fields =>
    .name "input" :: .name name :: blockTokens .braceL .braceR (fields.map InputValue.tokens)
  | directive d => d.tokens lead
  | _ => []

/-- A definition of a type or a directive, within the limits of the grammar; a directive has a
place where it may stand. -/
def IsWritable : Definition → Prop
  | scalar _ => True
  | object _ fields => ∀ f ∈ fields, f.IsWritable
  | interface _ fields => ∀ f ∈ fields, f.IsWritable
  | union _ _ => True
  | enum _ values => ∀ v ∈ values, Grammar.isEnumName v = true
  | input _ fields => ∀ v ∈ fields, v.IsWritable
  | directive d => d.locations ≠ [] ∧ ∀ v ∈ d.arguments, v.IsWritable
  | _ => False

end Definition

/-- The tokens of definitions, one behind the other. -/
inductive Written : List Definition → List Token → Prop
  | nil : Written [] []
  | cons {d : Definition} {ds : List Definition} {ts : List Token} (lead : Bool)
      (h : Written ds ts) : Written (d :: ds) (d.tokens lead ++ ts)

end SdlSchema.Sdl
