import SdlSchema.Cli.Yaml.Token

/-!
# The layout of YAML texts

Outside flow collections the structure of a text is given by indentation: a
collection starts with an item or a key that is indented more than what is
around it, and ends before what is indented less.

That something is a key is seen only from the colon behind it, so the place of
the last thing that can be a key is kept until then.  The key must end on its
line and within 1024 characters.

`Layout.tokens?` carries a layout through the symbols of a text.
-/

namespace SdlSchema.Cli.Yaml

/-- What can turn out to be a key: where it starts, how many tokens are before it, and whether it
must be one, because no more than keys can stand in its column. -/
structure KeyPlace where
  mark : Mark
  position : Nat
  required : Bool

/-- What is known in the middle of a text. -/
structure Layout where
  /-- What has been read. -/
  tokens : Array Token
  /-- The columns of the open block collections, inner ones first. -/
  columns : List Nat
  /-- What can be a key at present. -/
  key? : Option KeyPlace
  /-- What can be a key outside of each open flow collection, inner ones first. -/
  outer : List (Option KeyPlace)
  /-- A key can start here. -/
  keyAllowed : Bool
  /-- The names of anchors with their last numbers. -/
  anchors : List (String × Nat)

namespace KeyPlace

/-- Too far back for a key before a colon at the given place. -/
def isStale (k : KeyPlace) (m : Mark) : Bool :=
  k.mark.line < m.line || k.mark.index + 1024 < m.index

/-- Forgets what cannot be a key any more; it must not have to be one. -/
def refresh? (m : Mark) : Option KeyPlace → Option (Option KeyPlace)
  | none => some none
  | some k => if !k.isStale m then some (some k) else if k.required then none else some none

end KeyPlace

namespace Layout

/-- The layout at the start of a text. -/
def start : Layout := ⟨#[], [], none, [], true, []⟩

def inFlow (l : Layout) : Bool := !l.outer.isEmpty

/-- The least column of what belongs to the innermost block collection. -/
def least (l : Layout) : Nat := (l.columns.head?.map (· + 1)).getD 0

def push (t : Token) (l : Layout) : Layout := { l with tokens := l.tokens.push t }

/-- Says whether a key can start behind what has been read. -/
def allow (b : Bool) (l : Layout) : Layout := { l with keyAllowed := b }

/-! ## Keys -/

/-- What could be a key is none; it must not have to be one. -/
def dropKey? (l : Layout) : Option Layout :=
  if l.key?.any KeyPlace.required then none else some { l with key? := none }

/-- What starts here can be a key, if keys are allowed. -/
def saveKey? (s : Symbol) (l : Layout) : Option Layout := do
  if l.keyAllowed then
    let required := !l.inFlow && l.columns.head? = some s.mark.column
    let l ← l.dropKey?
    pure { l with key? := some ⟨s.mark, l.tokens.size, required⟩ }
  else pure l

/-- Forgets all that cannot be a key any more. -/
def refresh? (m : Mark) (l : Layout) : Option Layout := do
  let key? ← KeyPlace.refresh? m l.key?
  let outer ← l.outer.mapM (KeyPlace.refresh? m)
  pure { l with key?, outer }

/-! ## Indentation -/

/-- Ends the block collections that satisfy a condition on their columns. -/
def endWhile (p : Nat → Bool) (l : Layout) : Layout :=
  if l.inFlow then l
  else
    let ended := l.columns.takeWhile p
    { l with
      tokens := l.tokens ++ ended.map fun _ => Token.blockEnd
      columns := l.columns.dropWhile p }

/-- Ends the block collections to which a column does not belong. -/
def endBefore (column : Nat) (l : Layout) : Layout := l.endWhile (column < ·)

def endAll (l : Layout) : Layout := l.endWhile fun _ => true

/-- Starts a block collection before the token at a position, if a column is indented more than what
is around it. -/
def begin (column position : Nat) (t : Token) (l : Layout) : Layout :=
  if l.inFlow || !l.columns.head?.all (· < column) then l
  else
    { l with
      tokens := l.tokens.insertIdxIfInBounds position t
      columns := column :: l.columns }

/-- Starts a block collection here, if keys and items are allowed. -/
def beginHere? (s : Symbol) (t : Token) (l : Layout) : Option Layout :=
  if l.inFlow then some l
  else if l.keyAllowed then some (l.begin s.mark.column l.tokens.size t)
  else none

/-! ## Anchors

An anchor has the number of different names before it.  When a name is used
again, it shares its number with the next new name. -/

def define (name : String) (l : Layout) : Nat × Layout :=
  let n := l.anchors.length
  (n, { l with anchors := (name, n) :: l.anchors.filter fun a => a.1 ≠ name })

def number? (name : String) (l : Layout) : Option Nat :=
  (l.anchors.find? fun a => a.1 = name).map Prod.snd

/-! ## Structure -/

/-- A marker between documents. -/
def endContent? (t : Token) (l : Layout) : Option Layout := do
  pure (((← l.endAll.dropKey?).allow false).push t)

def openFlow? (s : Symbol) (t : Token) (l : Layout) : Option Layout := do
  let l ← l.saveKey? s
  pure (({ l with key? := none, outer := l.key? :: l.outer }.allow true).push t)

def closeFlow? (t : Token) (l : Layout) : Option Layout := do
  let l ← l.dropKey?
  pure (({ l with key? := l.outer.head?.join, outer := l.outer.tail }.allow false).push t)

def separate? (l : Layout) : Option Layout := do
  pure (((← l.dropKey?).allow true).push .flowEntry)

def item? (s : Symbol) (l : Layout) : Option Layout := do
  let l ← l.beginHere? s .blockSequence
  pure (((← l.dropKey?).allow true).push .blockEntry)

/-- A key after a question mark. -/
def explicitKey? (s : Symbol) (l : Layout) : Option Layout := do
  let l ← l.beginHere? s .blockMapping
  pure (((← l.dropKey?).allow !l.inFlow).push .key)

/-- A colon.  What could be a key is one now. -/
def value? (s : Symbol) (l : Layout) : Option Layout :=
  match l.key? with
  | some k =>
    let l := { l with tokens := l.tokens.insertIdxIfInBounds k.position .key, key? := none }
    some (((l.begin k.mark.column k.position .blockMapping).allow false).push .value)
  | none => do
    let l ← l.beginHere? s .blockMapping
    pure ((l.allow !l.inFlow).push .value)

/-! ## Reading -/

/-- A scalar in quotes. -/
def quoted (l : Layout) (s : Symbol) (read : SymbolReader String) : SymbolReader Layout := do
  let l ← Reader.ofOption (l.saveKey? s)
  pure ((l.allow false).push (.scalar .quoted (← read)))

/-- A block of lines. -/
def block (l : Layout) (folded : Bool) : SymbolReader Layout := do
  let l ← Reader.ofOption l.dropKey?
  pure ((l.allow true).push (.scalar .quoted (← Block.read folded l.columns.head?)))

def plain (l : Layout) (s : Symbol) : SymbolReader Layout := do
  Reader.guard (Plain.startsWith l.inFlow s)
  let l ← Reader.ofOption (l.saveKey? s)
  let (text, crossesLine) ← Plain.read l.inFlow l.least s
  pure ((l.allow crossesLine).push (.scalar .plain text))

def anchor (l : Layout) (s : Symbol) : SymbolReader Layout := do
  let l ← Reader.ofOption (l.saveKey? s)
  let (n, l) := l.define (← Token.readAnchor)
  pure ((l.allow false).push (.anchor n))

def reference (l : Layout) (s : Symbol) : SymbolReader Layout := do
  let l ← Reader.ofOption (l.saveKey? s)
  let n ← Reader.ofOption (l.number? (← Token.readAnchor))
  pure ((l.allow false).push (.reference n))

def tag (l : Layout) (s : Symbol) : SymbolReader Layout := do
  let l ← Reader.ofOption (l.saveKey? s)
  let (handle, suffix) ← Tag.read l.inFlow
  pure ((l.allow false).push (.tag handle suffix))

def directive (l : Layout) : SymbolReader Layout := do
  let l ← Reader.ofOption l.endAll.dropKey?
  pure ((l.allow false).push (← Token.readDirective))

/-- A marker of documents, after its first symbol. -/
def marker (l : Layout) (t : Token) : SymbolReader Layout := do
  let _ ← Reader.next
  let _ ← Reader.next
  Reader.ofOption (l.endContent? t)

/-- What starts with the given symbol. -/
def readToken (l : Layout) (s : Symbol) : SymbolReader Layout := do
  let rest ← Reader.rest
  if s.char = '%' && s.mark.column = 0 then l.directive
  else if isMarker '-' (s :: rest) then l.marker .documentStart
  else if isMarker '.' (s :: rest) then l.marker .documentEnd
  else match s.char with
    | '[' => Reader.ofOption (l.openFlow? s .flowSequence)
    | '\x7b' => Reader.ofOption (l.openFlow? s .flowMapping)
    | ']' => Reader.ofOption (l.closeFlow? .flowSequenceEnd)
    | '\x7d' => Reader.ofOption (l.closeFlow? .flowMappingEnd)
    | ',' => Reader.ofOption l.separate?
    | '*' => l.reference s
    | '&' => l.anchor s
    | '!' => l.tag s
    | '\x27' => l.quoted s Quoted.readSingle
    | '"' => l.quoted s Quoted.readDouble
    | c =>
      if c = '-' && s.beforeGap then Reader.ofOption (l.item? s)
      else if c = '?' && (l.inFlow || s.beforeGap) then Reader.ofOption (l.explicitKey? s)
      else if c = ':' && (l.inFlow || s.beforeGap) then Reader.ofOption (l.value? s)
      else if c = '|' && !l.inFlow then l.block false
      else if c = '>' && !l.inFlow then l.block true
      else l.plain s

/-- The layout behind what starts with the given symbol, which may be no more than a gap.  A tab is
part of a gap where it does not stand in the indentation of what could be a key. -/
def step (l : Layout) (s : Symbol) : SymbolReader Layout := do
  if s.char = ' ' || (s.char = '\t' && (l.inFlow || !l.keyAllowed)) || s.isOrderMark then pure l
  else if s.char = '#' then
    let _ ← Reader.span fun s => !s.isBreak
    pure l
  else if s.isBreak then pure (if l.inFlow then l else l.allow true)
  else
    let l ← Reader.ofOption (l.refresh? s.mark)
    (l.endBefore s.mark.column).readToken s

/-- The tokens of a whole text. -/
def tokens? (s : List Symbol) : Option (List Token) := do
  let l ← Reader.carry? step start s
  let l ← l.endAll.dropKey?
  pure l.tokens.toList

end Layout

end SdlSchema.Cli.Yaml
