import SdlSchema.Cli.Yaml.Token

/-!
# YAML nodes

The tree of nodes that the tokens of a document stand for.  Wherever a key, a
value or an item is missing there is an empty plain scalar.

Collections nest at most `nestingLimit` levels deep.
-/

namespace SdlSchema.Cli.Yaml

/-- The greatest number of levels. -/
def nestingLimit : Nat := 128

/-- A node can have an anchor, to which references lead, and a tag. -/
inductive Node where
  | reference (number : Nat)
  | scalar (anchor? : Option Nat) (tag : Tag) (style : Style) (text : String)
  | sequence (anchor? : Option Nat) (tag : Tag) (elements : List Node)
  | mapping (anchor? : Option Nat) (tag : Tag) (entries : List (Node × Node))

namespace Node

def empty : Node := scalar none .unmarked .plain ""

def anchor? : Node → Option Nat
  | reference _ => none
  | scalar a _ _ _ => a
  | sequence a _ _ => a
  | mapping a _ _ => a

/-! ## Traversal -/

mutual

/-- How many steps it takes to go through a node: one for a scalar or a reference, and two for a
collection besides those for what it holds. -/
def size : Node → Nat
  | reference _ => 1
  | scalar _ _ _ _ => 1
  | sequence _ _ es => 2 + sizes es
  | mapping _ _ es => 2 + entrySizes es

def sizes : List Node → Nat
  | [] => 0
  | n :: ns => n.size + sizes ns

def entrySizes : List (Node × Node) → Nat
  | [] => 0
  | (k, v) :: es => k.size + v.size + entrySizes es

end

mutual

/-- The nodes in a node with its own, each before those in it. -/
def nodes : Node → List Node
  | reference a => [reference a]
  | scalar a t s x => [scalar a t s x]
  | sequence a t es => sequence a t es :: nodesOfList es
  | mapping a t es => mapping a t es :: nodesOfEntries es

def nodesOfList : List Node → List Node
  | [] => []
  | n :: ns => n.nodes ++ nodesOfList ns

def nodesOfEntries : List (Node × Node) → List Node
  | [] => []
  | (k, v) :: es => k.nodes ++ v.nodes ++ nodesOfEntries es

end

/-- The nodes with anchors. -/
def anchored (n : Node) : List (Nat × Node) :=
  n.nodes.filterMap fun m => m.anchor?.map fun a => (a, m)

end Node

/-! ## The grammar -/

namespace Grammar

abbrev TokenReader := Reader Token

/-- Where a node stands.  Inside flow collections there are no block collections; a sequence that is
a key or a value of a block mapping need not be indented. -/
inductive Context where
  | flow
  | block
  | entry
  deriving DecidableEq

/-- A node, or an empty one before the given tokens. -/
def orEmpty (stops : List Token) (node : TokenReader Node) : TokenReader Node := do
  if (← Reader.peek?).any stops.contains then pure .empty else node

/-- Anchor and tag of a node. -/
structure Properties where
  anchor? : Option Nat
  tag : Tag

namespace Properties

def none : Properties := ⟨.none, .unmarked⟩

def readAnchor? : TokenReader (Option Nat) := do
  match ← Reader.peek? with
  | some (.anchor n) => do
    let _ ← Reader.next
    pure (some n)
  | _ => pure .none

def readTag? (handles : Handles) : TokenReader (Option Tag) := do
  match ← Reader.peek? with
  | some (.tag handle suffix) => do
    let _ ← Reader.next
    some <$> Reader.ofOption (Tag.resolve? handles handle suffix)
  | _ => pure .none

/-- An anchor and a tag, in either order; nothing if there is neither. -/
def read? (handles : Handles) : TokenReader (Option Properties) := do
  let anchor? ← readAnchor?
  let tag? ← readTag? handles
  let anchor? ← if anchor?.isSome then pure anchor? else readAnchor?
  if anchor?.isNone && tag?.isNone then pure .none
  else pure (some ⟨anchor?, tag?.getD .unmarked⟩)

end Properties

/-- A scalar, which is empty if there are only properties.  The shortest tag leaves a scalar that is
written unmarked. -/
def readScalar (properties? : Option Properties) : TokenReader Node := do
  let p := properties?.getD .none
  match ← Reader.peek? with
  | some (.scalar style text) => do
    let _ ← Reader.next
    let tag := if p.tag = .label "" then .unmarked else p.tag
    pure (.scalar p.anchor? tag style text)
  | _ => do
    Reader.guard properties?.isSome
    pure (.scalar p.anchor? p.tag .plain "")

/-- Items with commas between them, and possibly one after the last, up to the closing token. -/
def readFlowItems {α : Type} (closing : Token) (item : TokenReader α) : TokenReader (List α) := do
  if ← Reader.accept closing then pure []
  else
    let first ← item
    let more ← Reader.many (· = .flowEntry) fun _ => do
      if (← Reader.peek?) = some closing then pure none else some <$> item
    Reader.expect closing
    pure (first :: more.filterMap id)

/-- The value of a flow mapping, or nothing. -/
def readFlowValue (closing : Token) (node : TokenReader Node) : TokenReader Node := do
  if ← Reader.accept .value then orEmpty [.flowEntry, closing] node else pure .empty

/-- An entry of a flow mapping, in which a key alone has an empty value. -/
def readFlowEntry (node : TokenReader Node) : TokenReader (Node × Node) := do
  if ← Reader.accept .key then
    let k ← orEmpty [.value, .flowEntry, .flowMappingEnd] node
    pure (k, ← readFlowValue .flowMappingEnd node)
  else pure (← node, .empty)

/-- An element of a flow sequence: a node, or a key and a value, which make a mapping.  The token at
which a key turns out to be empty is dropped with it. -/
def readFlowElement (node : TokenReader Node) : TokenReader Node := do
  if ← Reader.accept .key then
    let k ←
      if ← Reader.acceptIf [.value, .flowEntry, .flowSequenceEnd].contains then pure .empty
      else node
    pure (.mapping none .unmarked [(k, ← readFlowValue .flowSequenceEnd node)])
  else node

/-- The items of a block sequence. -/
def readBlockItems (stops : List Token) (node : TokenReader Node) : TokenReader (List Node) :=
  Reader.many (· = .blockEntry) fun _ => orEmpty (.blockEntry :: stops) node

/-- The entries of a block mapping.  A key without a colon behind it has an empty value. -/
def readBlockEntries (node : TokenReader Node) : TokenReader (List (Node × Node)) :=
  Reader.many (· = .key) fun _ => do
    let k ← orEmpty [.key, .value, .blockEnd] node
    let v ←
      if ← Reader.accept .value then orEmpty [.key, .value, .blockEnd] node else pure .empty
    pure (k, v)

/-- A node with collections nested at most `depth` levels deep. -/
def readNode (handles : Handles) : Nat → Context → TokenReader Node
  | 0, _ => do
    match ← Reader.peek? with
    | some (.reference n) => do
      let _ ← Reader.next
      pure (.reference n)
    | _ => do readScalar (← Properties.read? handles)
  | depth + 1, context => do
    match ← Reader.peek? with
    | some (.reference n) => do
      let _ ← Reader.next
      pure (.reference n)
    | _ => do
      let properties? ← Properties.read? handles
      let p := properties?.getD .none
      let node := readNode handles depth
      if context = .entry && (← Reader.peek?) = some .blockEntry then
        .sequence p.anchor? p.tag <$> readBlockItems [.key, .value, .blockEnd] (node .block)
      else if ← Reader.accept .flowSequence then
        let elements ← readFlowItems .flowSequenceEnd (readFlowElement (node .flow))
        pure (.sequence p.anchor? p.tag elements)
      else if ← Reader.accept .flowMapping then
        let entries ← readFlowItems .flowMappingEnd (readFlowEntry (node .flow))
        pure (.mapping p.anchor? p.tag entries)
      else if context = .flow then readScalar properties?
      else if ← Reader.accept .blockSequence then
        let elements ← readBlockItems [.blockEnd] (node .block)
        Reader.expect .blockEnd
        pure (.sequence p.anchor? p.tag elements)
      else if ← Reader.accept .blockMapping then
        let entries ← readBlockEntries (node .entry)
        Reader.expect .blockEnd
        pure (.mapping p.anchor? p.tag entries)
      else readScalar properties?

/-! ## Documents -/

def isDirective : Token → Bool
  | .version => true
  | .handle _ _ => true
  | _ => false

/-- The handles that directives before a document make known.  None of them, and no version, is
given twice. -/
def readHandles : TokenReader Handles := do
  let directives ← Reader.many isDirective fun t => pure t
  let handles := directives.filterMap fun
    | .handle name start => some (name, start)
    | _ => none
  let names := handles.map Prod.fst
  Reader.guard (directives.count .version ≤ 1 && names.eraseDups.length = names.length)
  pure (handles ++ Tag.handles)

/-- The content of a document behind its first marker. -/
def readContent (handles : Handles) : TokenReader Node := do
  let isOver (t : Token) : Bool := isDirective t || t = .documentStart || t = .documentEnd
  if (← Reader.peek?).all isOver then pure .empty else readNode handles nestingLimit .block

/-- A document, if there is one, of which the first marker can be missing. -/
def readDocument : TokenReader (Option Node) := do
  match ← Reader.peek? with
  | none => pure none
  | some t => do
    let node ←
      if isDirective t || t = .documentStart then do
        let handles ← readHandles
        Reader.expect .documentStart
        readContent handles
      else readNode Tag.handles nestingLimit .block
    let _ ← Reader.span (· = .documentEnd)
    pure (some node)

end Grammar

end SdlSchema.Cli.Yaml
