import SdlSchema.Cli.Numeral
import SdlSchema.Cli.Setting
import SdlSchema.Escape
import SdlSchema.WhiteSpace

/-!
# Settings from the environment

The variables whose names start with `GQL2JSONSCHEMA_`, in any case, make one
tree of settings: two underscores or a point lead into a mapping, and of
variables that contradict each other the later one counts.

A value is a boolean, a number, a quoted string, a list in brackets or a
mapping in braces; what cannot be read as one of these is a plain string.

Some quoted strings cannot be handled at all: a variable with such a string
leaves no settings.
-/

namespace SdlSchema.Cli

/-- Variables and their values. -/
abbrev Environment := List (String × String)

namespace Environment

/-! ## Characters -/

def isBlank (c : Char) : Bool :=
  c = ' ' || c = '\t' || c = '\n' || c = '\r' || c = '\x0c'

def isSeparator (c : Char) : Bool := c = ',' || c = '{' || c = '}' || c = '[' || c = ']'

def isKeyChar (c : Char) : Bool := c.isAlphanum || c = '_' || c = '-'

/-- A control character other than a tab, which no quoted string can hold. -/
def isControl (c : Char) : Bool := (c.toNat < 0x20 && c ≠ '\t') || c = '\x7f'

/-! ## Readers -/

/-- Readers of values.  A value without a result is one that cannot be handled; nothing behind it
matters. -/
abbrev ValueReader := OptionT (Reader Char)

/-- Ends the reading without a result. -/
def giveUp {α : Type} : ValueReader α := OptionT.mk do
  let _ ← Reader.span fun _ => true
  pure none

def skipBlanks : Reader Char Unit := do
  let _ ← Reader.span isBlank
  pure ()

/-- Drops exactly the given characters if they come next, and tells whether they did. -/
def acceptAll (cs : List Char) : Reader Char Bool := do
  if cs.isPrefixOf (← Reader.rest) then
    cs.forM fun _ => do
      let _ ← Reader.next
    pure true
  else pure false

/-- Items with commas between them and possibly one after the last, up to the closing character. -/
def readItems {α : Type} (closing : Char) (item : ValueReader α) : ValueReader (List α) := do
  if ← Reader.accept closing then pure []
  else
    let first ← item
    let more ← OptionT.mk do
      let items ← Reader.many (· = ',') fun _ => do
        if (← Reader.peek?) = some closing then pure (some none) else (some <$> item).run
      pure (items.mapM id)
    Reader.expect closing
    pure (first :: more.filterMap id)

/-! ## Scalars -/

/-- A value without delimiters. -/
def bare (cs : List Char) : Setting :=
  let cs := WhiteSpace.trim cs
  if Numeral.isInteger 64 cs || Numeral.hasPoint cs then .number else .text (String.ofList cs)

/-- The code point written with the given number of digits. -/
def readCode (digits : Nat) : Reader Char Char := do
  let ds ← (List.replicate digits ()).mapM fun _ => Escape.readHexDigit
  Reader.ofOption (Escape.charOfHex? ds)

/-- The character for which an escape stands, after its backslash. -/
def readEscape : Reader Char Char := do
  let c ← Reader.next
  if c = 'u' then readCode 4
  else if c = 'U' then readCode 8
  else do
    Reader.guard (c ≠ '/')
    Reader.ofOption (Escape.ofLetter? c)

/-- A character of a quoted string, of which `c` is the first. -/
def readCharacter (c : Char) : Reader Char Char := do
  Reader.guard !(isControl c)
  if c = '\\' then readEscape else pure c

/-- The characters at the front that take up the given number of bytes. -/
def takeBytes? : Nat → List Char → Option (List Char)
  | 0, _ => some []
  | _ + 1, [] => none
  | n + 1, c :: cs =>
    if n + 1 < c.utf8Size then none
    else (takeBytes? (n + 1 - c.utf8Size) cs).map (c :: ·)

/-- What is between the quotes of a string, as it is written. -/
def readBetweenQuotes : Reader Char (List Char) := do
  let parts ← Reader.upTo (· = '"') fun c => do
    if c = '\\' then pure [c, ← Reader.next] else pure [c]
  pure parts.flatten

/-- The string with the given characters between its quotes.  Of the text before the first escape as
many bytes are kept as it has characters; where that is no whole number of characters there is no
result. -/
def unescape? (cs : List Char) : Option (Option String) :=
  let plain := cs.takeWhile (· ≠ '\\')
  let escaped := cs.dropWhile (· ≠ '\\')
  if plain.any isControl then none
  else if escaped.isEmpty then some (some (String.ofList plain))
  else match takeBytes? plain.length plain with
    | none => some none
    | some kept =>
      ((Reader.toEnd readCharacter).readAll? escaped).map fun more =>
        some (String.ofList (kept ++ more))

/-- The rest of a quoted string. -/
def readQuoted : ValueReader String := do
  match unescape? (← readBetweenQuotes) with
  | none => (Reader.fail : Reader Char String)
  | some none => giveUp
  | some (some s) => pure s

/-- The rest of a character between single quotes. -/
def readSingle : Reader Char Setting := do
  let c ← Reader.next
  Reader.expect '\x27'
  pure (.text (String.ofList [c]))

/-- A key without quotes. -/
def readBareKey : Reader Char String := do
  let cs ← Reader.span isKeyChar
  Reader.guard !cs.isEmpty
  pure (String.ofList cs)

/-! ## Values -/

/-- The key of a mapping in braces, bare or quoted. -/
def readKey : ValueReader String := do
  if ← Reader.accept '"' then readQuoted else readBareKey

/-- A value with the blanks around it, in which containers are nested at most `depth` times.  A text
that starts with the name of a boolean is one. -/
def readValue : Nat → ValueReader Setting
  | 0 => (Reader.fail : Reader Char Setting)
  | depth + 1 => do
    let entry : ValueReader (String × Setting) := do
      skipBlanks
      let k ← readKey
      skipBlanks
      Reader.expect '='
      pure (k, ← readValue depth)
    skipBlanks
    let v : Setting ←
      if ← acceptAll ['t', 'r', 'u', 'e'] then pure (.bool true)
      else if ← acceptAll ['f', 'a', 'l', 's', 'e'] then pure (.bool false)
      else if ← Reader.accept '[' then .list <$> readItems ']' (readValue depth)
      else if ← Reader.accept '{' then .ofEntries <$> readItems '}' entry
      else if ← Reader.accept '"' then .text <$> readQuoted
      else if ← Reader.accept '\x27' then readSingle
      else pure (bare (← Reader.span fun c => !isSeparator c))
    skipBlanks
    pure v

/-- The setting for which the text of a variable stands, unless that cannot be handled. -/
def readSetting? (text : String) : Option Setting :=
  ((readValue (text.length + 1)).run.readAll? text.toList).getD (some (.text text))

/-! ## Names -/

/-- With what the names of all variables start, in lower case. -/
def nameStart : List Char := "gql2jsonschema_".toList

/-- Splits at every point and every pair of underscores. -/
def splitKeys : List Char → List (List Char)
  | [] => [[]]
  | '_' :: '_' :: cs => [] :: splitKeys cs
  | c :: cs =>
    if c = '.' then [] :: splitKeys cs
    else match splitKeys cs with
      | [] => [[c]]
      | k :: ks => (c :: k) :: ks

/-- The keys that lead to the setting of a variable, in lower case.  None of them is empty. -/
def keys? (name : String) : Option (List String) :=
  let cs := (WhiteSpace.trim name.toList).map Char.toLower
  let keys := splitKeys (WhiteSpace.trim (cs.drop nameStart.length))
  if nameStart.isPrefixOf cs && keys.all (!·.isEmpty) then some (keys.map String.ofList)
  else none

/-- The settings of all variables together, unless one of them cannot be handled. -/
def settings? (env : Environment) : Option Setting :=
  env.foldlM (fun merged (name, text) =>
    match keys? name with
    | some keys => (readSetting? text).map fun s => (Setting.nest keys s).merge merged
    | none => some merged) (.map [])

/-- The value of a variable; of several with one name the last one counts. -/
def get? (env : Environment) (name : String) : Option String :=
  (env.reverse.find? fun v => v.1 = name).map Prod.snd

end Environment

end SdlSchema.Cli
