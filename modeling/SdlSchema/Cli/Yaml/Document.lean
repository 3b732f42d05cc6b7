import SdlSchema.Cli.Yaml.Layout
import SdlSchema.Cli.Yaml.Resolution

/-!
# Settings from YAML

A configuration is a single YAML document that holds a mapping, or nothing.
Its keys are scalars, taken as they are written; of equal keys the last one
counts.

A reference stands for the last node with its anchor.  References can repeat
nodes so often that a document would never be done with, so only a hundred
times as many of them are followed as its size is.
-/

namespace SdlSchema.Cli.Yaml

/-- The means of going through a document: how many more references can be followed. -/
abbrev Walk := StateT Nat Option

namespace Node

/-- The node itself or, for a reference, the first of the anchored nodes to which it leads. -/
def follow (anchored : List (Nat × Node)) : Node → Walk Node
  | reference a => do
    let left ← get
    if left = 0 then failure
    else
      set (left - 1)
      ((anchored.find? fun e => e.1 = a).map Prod.snd : Option Node)
  | n => pure n

/-- The text of a key, which is a scalar. -/
def key (anchored : List (Nat × Node)) (n : Node) : Walk String := do
  match ← n.follow anchored with
  | scalar _ _ _ text => pure text
  | _ => failure

/-- What a node means in which collections nest at most `depth` levels deep. -/
def toSetting (anchored : List (Nat × Node)) : Nat → Node → Walk Setting
  | 0, n => do
    match ← n.follow anchored with
    | scalar _ tag style text => (tag.scalar? style text : Option Setting)
    | _ => failure
  | depth + 1, n => do
    match ← n.follow anchored with
    | scalar _ tag style text => (tag.scalar? style text : Option Setting)
    | sequence _ tag elements => do
      pure (tag.wrap (.list (← elements.mapM (toSetting anchored depth))))
    | mapping _ tag entries => do
      let entries ← entries.mapM fun (k, v) => do
        pure (← k.key anchored, ← toSetting anchored depth v)
      pure (tag.wrap (.ofEntries entries))
    | reference _ => failure

/-- The settings in a whole document, whatever its tag is. -/
def settings? : Node → Option Setting
  | scalar _ _ .plain "" => some (.map [])
  | mapping a tag entries =>
    let document := mapping a tag entries
    let anchored := document.anchored.reverse
    (((mapping none .unmarked entries).toSetting anchored nestingLimit).run
      (100 * document.size)).map Prod.fst
  | _ => none

end Node

/-- The settings that a text holds. -/
def ofText? (text : String) : Option Setting := do
  let cs := text.toList
  if cs.all isAllowed then
    let tokens ← Layout.tokens? (Symbol.ofChars .start cs)
    match ← Grammar.readDocument.readAll? tokens with
    | some document => document.settings?
    | none => some (.map [])
  else none

end SdlSchema.Cli.Yaml
