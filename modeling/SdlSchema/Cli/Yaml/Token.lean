import SdlSchema.Cli.Yaml.Scalar
import SdlSchema.Cli.Yaml.Tag

/-!
# YAML tokens

Of how a text is laid out tokens keep only its structure: where collections
start and end, keys, values and items.  Anchors are numbered.
-/

namespace SdlSchema.Cli.Yaml

/-- Plain scalars can be something else than text. -/
inductive Style where
  | plain
  | quoted
  deriving DecidableEq

inductive Token where
  | version
  | handle (name : String) (start : List UInt8)
  | documentStart
  | documentEnd
  | blockSequence
  | blockMapping
  | blockEnd
  | flowSequence
  | flowSequenceEnd
  | flowMapping
  | flowMappingEnd
  | blockEntry
  | flowEntry
  | key
  | value
  | anchor (number : Nat)
  | reference (number : Nat)
  | tag (handle : String) (suffix : List UInt8)
  | scalar (style : Style) (text : String)
  deriving DecidableEq

namespace Token

/-- The name of an anchor after its mark. -/
def readAnchor : SymbolReader String := do
  let name := (← Reader.span fun s => isNameChar s.char).map Symbol.char
  let follows (s : Symbol) : Bool := s.isGap || "?:,]\x7d%@\x60".toList.contains s.char
  Reader.guard (!name.isEmpty && (← endOr follows))
  pure (String.ofList name)

/-! ## Directives -/

/-- A number of at most nine digits. -/
def readVersionNumber : SymbolReader Nat := do
  let digits := (← Reader.span fun s => s.char.isDigit).map Symbol.char
  Reader.guard (!digits.isEmpty && digits.length ≤ 9)
  pure (digits.foldl (fun n c => 10 * n + (c.toNat - 48)) 0)

/-- The version 1.1 or 1.2. -/
def readVersion : SymbolReader Token := do
  skipBlanks
  let major ← readVersionNumber
  expect '.'
  let minor ← readVersionNumber
  Reader.guard (major = 1 && (minor = 1 || minor = 2))
  pure version

/-- A handle and what it stands for. -/
def readHandle : SymbolReader Token := do
  skipBlanks
  expect '!'
  let name ← Tag.readHandle
  let blanks ← Reader.span Symbol.isBlank
  let start ← Tag.readSomeUri false
  Reader.guard (!blanks.isEmpty && (← atGap))
  pure (handle name start)

/-- A directive after its percent sign, and the end of its line. -/
def readDirective : SymbolReader Token := do
  let name := String.ofList ((← Reader.span fun s => isNameChar s.char).map Symbol.char)
  Reader.guard (← atGap)
  let t ← if name = "YAML" then readVersion else if name = "TAG" then readHandle else Reader.fail
  endLine
  pure t

end Token

end SdlSchema.Cli.Yaml
