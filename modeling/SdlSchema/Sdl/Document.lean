import SdlSchema.Sdl.Definition
import SdlSchema.Sdl.Token

/-!
# GraphQL documents

The grammar of documents over tokens.  The first token of each construct tells
which one it is, so a reader of a construct is given that token and starts
after it.

Commas are ignored except in four places, where one token is looked at behind
another to tell what comes: behind a description, behind `extend`, behind an
alias and behind a spread.

Nesting is bounded: list types, list values that hold an element, fields of
object values and selection sets may be nested in one another up to
`nestingLimit` levels.  The readers count the levels that are left; the count
is also what their recursion goes down on.
-/

namespace SdlSchema.Sdl

/-- The greatest number of levels. -/
def nestingLimit : Nat := 500

namespace Grammar

/-- Readers of the grammar work on tokens. -/
abbrev TokenReader := Reader Lexeme

/-! ## Small parts -/

def accept (p : Punctuator) : TokenReader Bool := Reader.acceptIf fun l => l.token = .punct p

def expect (p : Punctuator) : TokenReader Unit := do Reader.guard (← accept p)

def acceptName (s : String) : TokenReader Bool := Reader.acceptIf fun l => l.token = .name s

def expectName (s : String) : TokenReader Unit := do Reader.guard (← acceptName s)

/-- Drops a name, whatever it is, and tells whether there was one. -/
def acceptAnyName : TokenReader Bool := Reader.acceptIf fun l => l.token matches .name _

/-- The next token, in front of which commas are ignored. -/
def next : TokenReader Token := do pure (← Reader.next).token

def nameOf : Token → TokenReader String
  | .name s => pure s
  | _ => Reader.fail

def readName : TokenReader String := do nameOf (← next)

/-- No comma comes before the next token. -/
def noComma : TokenReader Unit := do
  Reader.guard (!(← Reader.peek?).any fun l => l.afterComma)

/-- The first token of a construct after its description, if it has one. -/
def described : Token → TokenReader Token
  | .string _ => next
  | t => pure t

/-- Items up to the closing bracket. -/
def readItems {α : Type} (closing : Punctuator) (item : Token → TokenReader α) :
    TokenReader (List α) :=
  Reader.upTo (fun l => l.token = .punct closing) fun l => item l.token

/-- As `readItems`, with at least one item. -/
def readSomeItems {α : Type} (closing : Punctuator) (item : Token → TokenReader α) :
    TokenReader (List α) :=
  Reader.someUpTo (fun l => l.token = .punct closing) fun l => item l.token

/-- At least one item in brackets, or no brackets at all. -/
def optionalBlock {α : Type} (opening closing : Punctuator) (item : Token → TokenReader α) :
    TokenReader (List α) := do
  if ← accept opening then readSomeItems closing item else pure []

/-- Names with a separator between them, and possibly one before the first. -/
def readSeparated {α : Type} (separator : Punctuator) (item : TokenReader α) :
    TokenReader (List α) := do
  let _ ← accept separator
  let first ← item
  let more ← Reader.many (fun l => l.token = .punct separator) fun _ => item
  pure (first :: more)

/-! ## Types and values -/

/-- A type with at most `depth` lists around its name. -/
def readType : Nat → TokenReader TypeRef
  | 0 => do
    let n ← readName
    pure (.named n (← accept .bang))
  | depth + 1 => do
    if ← accept .bracketL then
      let t ← readType depth
      expect .bracketR
      pure (.list t (← accept .bang))
    else
      let n ← readName
      pure (.named n (← accept .bang))

/-- A name as a value: one of the three constants, or else an enum value. -/
def constOfName : String → Const
  | "true" => .boolean true
  | "false" => .boolean false
  | "null" => .null
  | s => .enum s

/-- A value that holds no others. -/
def readScalar (executable : Bool) : Token → TokenReader Const
  | .number n => pure (.number n)
  | .string s => pure (.string s)
  | .name s => pure (constOfName s)
  | .punct .dollar => do
    Reader.guard executable
    pure (.variable (← readName))
  | .punct _ => Reader.fail

/-- A value that starts with the given token.  A container that holds something needs a level of its
own; variables are allowed only where a document is executed.  Fields of an object that are not
given a value are left out. -/
def readValue (executable : Bool) : Nat → Token → TokenReader Const
  | 0, .punct .bracketL => do
    expect .bracketR
    pure (.list [])
  | 0, .punct .braceL => do
    let _ ← readItems .braceR nameOf
    pure (.object [])
  | depth + 1, .punct .bracketL => do
    pure (.list (← readItems .bracketR (readValue executable depth)))
  | depth + 1, .punct .braceL => do
    let fields ← readItems .braceR fun t => do
      let n ← nameOf t
      if ← accept .colon then pure (some (n, ← readValue executable depth (← next)))
      else pure none
    pure (.object (fields.filterMap id))
  | _, t => readScalar executable t

/-- Arguments in parentheses, if there are any, with their values, if they are given. -/
def readArguments (executable : Bool) (depth : Nat) :
    TokenReader (List (String × Option Const)) :=
  optionalBlock .parenL .parenR fun t => do
    let n ← nameOf t
    if ← accept .colon then pure (n, some (← readValue executable depth (← next)))
    else pure (n, none)

/-- The names of the directives applied here. -/
def readDirectives (executable : Bool) (depth : Nat) : TokenReader (List String) :=
  Reader.many (fun l => l.token = .punct .atSign) fun _ => do
    let n ← readName
    let _ ← readArguments executable depth
    pure n

/-! ## Type system definitions -/

def readDefault (depth : Nat) : TokenReader (Option Const) := do
  if ← accept .equals then
    some <$> readValue false depth (← next)
  else pure none

/-- An argument, or a field of an input object, that starts with the given token. -/
def readInputValue (depth : Nat) (t : Token) : TokenReader InputValue := do
  let n ← nameOf (← described t)
  expect .colon
  let type ← readType depth
  let default? ← readDefault depth
  let _ ← readDirectives false depth
  pure ⟨n, type, default?⟩

def readInputValues (depth : Nat) (opening closing : Punctuator) : TokenReader (List InputValue) :=
  optionalBlock opening closing (readInputValue depth)

/-- A field of an object type that starts with the given token. -/
def readField (depth : Nat) (t : Token) : TokenReader Field := do
  let n ← nameOf (← described t)
  let arguments ← readInputValues depth .parenL .parenR
  expect .colon
  let type ← readType depth
  let _ ← readDirectives false depth
  pure ⟨n, type, arguments⟩

def readFields (depth : Nat) : TokenReader (List Field) :=
  optionalBlock .braceL .braceR (readField depth)

/-- The interfaces after the keyword `implements`. -/
def readInterfaces : TokenReader (List String) := do
  if ← acceptName "implements" then readSeparated .amp readName else pure []

/-- The members of a union after an equals sign, if there is one. -/
def readMembers : TokenReader (List String) := do
  if ← accept .equals then readSeparated .pipe readName else pure []

/-- The names of the three constants are no enum values. -/
def isEnumName (s : String) : Bool := s ≠ "true" && s ≠ "false" && s ≠ "null"

def readEnumValue (depth : Nat) (t : Token) : TokenReader String := do
  let n ← nameOf (← described t)
  Reader.guard (isEnumName n)
  let _ ← readDirectives false depth
  pure n

def readEnumValues (depth : Nat) : TokenReader (List String) :=
  optionalBlock .braceL .braceR (readEnumValue depth)

def isOperation (s : String) : Bool := s = "query" || s = "mutation" || s = "subscription"

/-- An operation and the type at which it starts, if that is named. -/
def readRootOperation (t : Token) : TokenReader String := do
  let n ← nameOf t
  Reader.guard (isOperation n)
  expect .colon
  let _ ← acceptAnyName
  pure n

def readLocation : TokenReader Location := do
  Reader.ofOption (Location.ofName? (← readName))

/-- A definition of a type, a directive or the schema, after its keyword. -/
def readTypeSystem (depth : Nat) : String → TokenReader Definition
  | "schema" => do
    let _ ← readDirectives false depth
    let _ ← optionalBlock .braceL .braceR readRootOperation
    pure .schema
  | "scalar" => do
    let n ← readName
    let _ ← readDirectives false depth
    pure (.scalar n)
  | "type" => do
    let n ← readName
    let _ ← readInterfaces
    let _ ← readDirectives false depth
    pure (.object n (← readFields depth))
  | "interface" => do
    let n ← readName
    let _ ← readInterfaces
    let _ ← readDirectives false depth
    pure (.interface n (← readFields depth))
  | "union" => do
    let n ← readName
    let _ ← readDirectives false depth
    pure (.union n (← readMembers))
  | "enum" => do
    let n ← readName
    let _ ← readDirectives false depth
    pure (.enum n (← readEnumValues depth))
  | "input" => do
    let n ← readName
    let _ ← readDirectives false depth
    pure (.input n (← readInputValues depth .braceL .braceR))
  | "directive" => do
    expect .atSign
    let n ← readName
    let arguments ← readInputValues depth .parenL .parenR
    let repeatable ← acceptName "repeatable"
    expectName "on"
    let locations ← readSeparated .pipe readLocation
    pure (.directive ⟨n, arguments, repeatable, locations⟩)
  | _ => Reader.fail

/-! ## Extensions

An extension has the form of a definition and must add something. -/

/-- An extension, after its two keywords. -/
def readExtension (depth : Nat) : String → TokenReader Definition
  | "schema" => do
    let directives ← readDirectives false depth
    let operations ← if ← accept .braceL then readItems .braceR readRootOperation else pure []
    Reader.guard (!(directives.isEmpty && operations.isEmpty))
    pure .schemaExtension
  | "scalar" => do
    let _ ← readName
    let directives ← readDirectives false depth
    Reader.guard (!directives.isEmpty)
    pure (.typeExtension .scalar)
  | "type" => do
    let _ ← readName
    let interfaces ← readInterfaces
    let directives ← readDirectives false depth
    let fields ← readFields depth
    Reader.guard (!(interfaces.isEmpty && directives.isEmpty && fields.isEmpty))
    pure (.typeExtension .object)
  | "interface" => do
    let _ ← readName
    let interfaces ← readInterfaces
    let directives ← readDirectives false depth
    let fields ← readFields depth
    Reader.guard (!(interfaces.isEmpty && directives.isEmpty && fields.isEmpty))
    pure (.typeExtension .interface)
  | "union" => do
    let _ ← readName
    let directives ← readDirectives false depth
    let members ← readMembers
    Reader.guard (!(directives.isEmpty && members.isEmpty))
    pure (.typeExtension .union)
  | "enum" => do
    let _ ← readName
    let directives ← readDirectives false depth
    let values ← readEnumValues depth
    Reader.guard (!(directives.isEmpty && values.isEmpty))
    pure (.typeExtension .enum)
  | "input" => do
    let _ ← readName
    let directives ← readDirectives false depth
    let fields ← readInputValues depth .braceL .braceR
    Reader.guard (!(directives.isEmpty && fields.isEmpty))
    pure (.typeExtension .input)
  | _ => Reader.fail

/-! ## Executable definitions -/

/-- The selections after an opening brace, up to the closing one.  A colon behind a comma makes no
alias. -/
def readSelections : Nat → TokenReader Unit
  | 0 => Reader.fail
  | depth + 1 => do
    let _ ← readSomeItems .braceR fun t => do
      match t with
      | .name _ => do
        if ← Reader.acceptIf fun l => l.token = .punct .colon && !l.afterComma then
          let _ ← readName
        let _ ← readArguments true depth
        let _ ← readDirectives true depth
        if ← accept .braceL then readSelections depth
      | .punct .spread => do
        noComma
        if ← acceptName "on" then
          let _ ← readName
          let _ ← readDirectives true depth
          expect .braceL
          readSelections depth
        else if ← acceptAnyName then
          let _ ← readDirectives true depth
        else
          let _ ← readDirectives true depth
          expect .braceL
          readSelections depth
      | _ => Reader.fail

/-- The definition of a variable of an operation. -/
def readVariable (depth : Nat) (t : Token) : TokenReader String := do
  Reader.guard (t = .punct .dollar)
  let n ← readName
  expect .colon
  let _ ← readType depth
  let _ ← readDefault depth
  let _ ← readDirectives false depth
  pure n

/-- An operation after its keyword. -/
def readOperation (depth : Nat) : TokenReader Definition := do
  let _ ← acceptAnyName
  let _ ← optionalBlock .parenL .parenR (readVariable depth)
  let _ ← readDirectives true depth
  expect .braceL
  readSelections depth
  pure .operation

/-- A fragment after its name, which cannot be `on`. -/
def readFragment (depth : Nat) (name : String) : TokenReader Definition := do
  Reader.guard (name ≠ "on")
  expectName "on"
  let _ ← readName
  let _ ← readDirectives true depth
  expect .braceL
  readSelections depth
  pure .fragment

/-! ## Documents -/

/-- A definition that starts with the given token.  Definitions of the type system have
descriptions; so has a fragment, for which the description stands in the place of the keyword, if
its name is `fragment`. -/
def readDefinition (depth : Nat) : Token → TokenReader Definition
  | .string _ => do
    noComma
    let s ← readName
    if s = "fragment" then readFragment depth s else readTypeSystem depth s
  | .punct .braceL => do
    readSelections depth
    pure .operation
  | .name s =>
    if s = "extend" then do
      noComma
      readExtension depth (← readName)
    else if s = "fragment" then do readFragment depth (← readName)
    else if isOperation s then readOperation depth
    else readTypeSystem depth s
  | _ => Reader.fail

end Grammar

/-- The definitions of a document, of which there is at least one. -/
def ofLexemes? (ls : List Lexeme) : Option (List Definition) := do
  let read (l : Lexeme) := Grammar.readDefinition nestingLimit l.token
  let definitions ← (Reader.toEnd read).readAll? ls
  if definitions.isEmpty then none else some definitions

def ofChars? (cs : List Char) : Option (List Definition) := (Lexeme.ofChars? cs).bind ofLexemes?

/-- The definitions that a source text holds. -/
def ofText? (s : String) : Option (List Definition) := ofChars? s.toList

end SdlSchema.Sdl
