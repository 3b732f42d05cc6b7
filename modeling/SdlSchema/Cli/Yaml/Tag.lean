import SdlSchema.Cli.Yaml.Symbol
import SdlSchema.Escape

/-!
# YAML tags

A tag is written with a handle, which stands for the start of the tag, and a
suffix, or in angle brackets as a whole.  In both forms bytes can be escaped,
so tags are lists of bytes.
-/

namespace SdlSchema.Cli.Yaml

/-- The types of scalars that a tag can ask for. -/
inductive ScalarType where
  | null
  | bool
  | int
  | float
  deriving DecidableEq

/-- What a tag asks for. -/
inductive Tag where
  /-- There is none. -/
  | unmarked
  | scalar (type : ScalarType)
  /-- Another tag of a global type, which leaves a scalar as it is written. -/
  | global
  /-- A tag of the document's own. -/
  | label (name : String)
  deriving DecidableEq

/-- Handles and what they stand for. -/
abbrev Handles := List (String × List UInt8)

namespace Tag

def bytesOf (s : String) : List UInt8 := s.toUTF8.toList

/-- With what the tags of the YAML types start. -/
def standard : String := "tag:yaml.org,2002:"

/-- The handles that need no directive. -/
def handles : Handles := [("!", bytesOf "!"), ("!!", bytesOf standard)]

def ofBytes (bytes : List UInt8) : Tag :=
  if bytes = bytesOf (standard ++ "null") then scalar .null
  else if bytes = bytesOf (standard ++ "bool") then scalar .bool
  else if bytes = bytesOf (standard ++ "int") then scalar .int
  else if bytes = bytesOf (standard ++ "float") then scalar .float
  else match bytes with
    | first :: more =>
      if first.toNat = '!'.toNat then ((String.fromUTF8? ⟨more.toArray⟩).map label).getD unmarked
      else global
    | [] => global

/-- The tag with a handle, which must be known, and a suffix.  No handle stands for nothing. -/
def resolve? (known : Handles) (handle : String) (suffix : List UInt8) : Option Tag :=
  if handle.isEmpty then some (ofBytes suffix)
  else (known.find? fun h => h.1 = handle).map fun h => ofBytes (h.2 ++ suffix)

/-! ## Reading -/

/-- Characters of tags.  Commas and brackets are some only where no flow collection could end. -/
def isUriChar (everywhere : Bool) (s : Symbol) : Bool :=
  isNameChar s.char || ";/?:@&=+$.%!~*\x27()".toList.contains s.char ||
    (!everywhere && ",[]".toList.contains s.char)

/-- The octet that is written with two digits after a percent sign. -/
def readOctet : SymbolReader Nat := do
  let a ← Reader.ofOption (Escape.hexValue? (← Reader.next).char)
  let b ← Reader.ofOption (Escape.hexValue? (← Reader.next).char)
  pure (16 * a + b)

/-- How many octets follow the first one of a character. -/
def following? (first : Nat) : Option Nat :=
  if first < 0x80 then some 0
  else if first < 0xC0 then none
  else if first < 0xE0 then some 1
  else if first < 0xF0 then some 2
  else if first < 0xF8 then some 3
  else none

/-- The octets of a character, after the first percent sign. -/
def readOctets : SymbolReader (List UInt8) := do
  let first ← readOctet
  let n ← Reader.ofOption (following? first)
  let more ← (List.replicate n ()).mapM fun _ => do
    expect '%'
    let octet ← readOctet
    Reader.guard (0x80 ≤ octet && octet < 0xC0)
    pure octet.toUInt8
  pure (first.toUInt8 :: more)

/-- The bytes of the characters that can stand in a tag. -/
def readUri (everywhere : Bool) : SymbolReader (List UInt8) := do
  let parts ← Reader.many (isUriChar everywhere) fun s => do
    if s.char = '%' then readOctets else pure (bytesOf s.char.toString)
  pure parts.flatten

/-- The bytes that count: a zero byte ends a tag, whatever is written behind it. -/
def beforeZero (bytes : List UInt8) : List UInt8 := bytes.takeWhile (· ≠ 0)

/-- As `readUri`, with at least one character. -/
def readSomeUri (everywhere : Bool) : SymbolReader (List UInt8) := do
  let bytes ← readUri everywhere
  Reader.guard !bytes.isEmpty
  pure (beforeZero bytes)

/-- A handle after its exclamation mark: a name between two such marks, or the mark alone. -/
def readHandle : SymbolReader String := do
  let name := (← Reader.span fun s => isNameChar s.char).map Symbol.char
  if ← accept '!' then pure ("!" ++ String.ofList name ++ "!")
  else do
    Reader.guard name.isEmpty
    pure "!"

/-- Handle and suffix of a tag after its exclamation mark, which may be all of it. -/
def readParts : SymbolReader (String × List UInt8) := do
  if ← accept '<' then
    let bytes ← readSomeUri false
    expect '>'
    pure ("", bytes)
  else
    let name := (← Reader.span fun s => isNameChar s.char).map Symbol.char
    if ← accept '!' then pure ("!" ++ String.ofList name ++ "!", ← readSomeUri true)
    else
      let suffix := bytesOf (String.ofList name) ++ beforeZero (← readUri true)
      pure (if suffix.isEmpty then ("", bytesOf "!") else ("!", suffix))

/-- A tag after its exclamation mark.  What comes behind it is a gap, or a comma inside a flow
collection. -/
def read (inFlow : Bool) : SymbolReader (String × List UInt8) := do
  let parts ← readParts
  Reader.guard (← endOr fun s => s.isGap || (inFlow && s.char = ','))
  pure parts

end Tag

end SdlSchema.Cli.Yaml
