import SdlSchema.Cli.Arguments
import SdlSchema.Cli.Setting
import SdlSchema.Mode

/-!
# Configuration

The settings of a run.  What a source does not mention has its default, keys
without a meaning are passed over, and a value of the wrong type makes the
whole configuration unusable.  Flags on the command line count for more than
all sources.
-/

namespace SdlSchema.Cli

/-- From which level on events are logged, and where. -/
structure Logging where
  level : Level := .info
  /-- The directory of the log file; without one logs go to standard error. -/
  path? : Option String := none
  deriving DecidableEq

/-- Where the schema goes, and how it is laid out. -/
structure Output where
  /-- The file to write; without one the schema goes to standard output. -/
  path? : Option String := none
  pretty : Bool := true
  deriving DecidableEq

/-- All that a run can be told. -/
structure Config where
  mode : Mode := .relaxed
  logging : Logging := {}
  output : Output := {}
  deriving DecidableEq

/-! ## From settings -/

namespace Setting

/-- A path, which null leaves open. -/
def asPath? : Setting → Option (Option String)
  | null => some none
  | text s => some (some s)
  | _ => none

def asBool? : Setting → Option Bool
  | bool b => some b
  | _ => none

/-- The least key of a mapping, with its value. -/
def first? (entries : List (String × Setting)) : Option (String × Setting) :=
  entries.foldl (fun least e =>
    match least with
    | some l => if e.1 < l.1 then some e else some l
    | none => some e) none

/-- One of several names: as text, or as a key with nothing under it. -/
def asName? {α : Type} (ofName? : String → Option α) : Setting → Option α
  | text s => ofName? s
  | map entries =>
    match first? entries with
    | some (s, null) => ofName? s
    | _ => none
  | _ => none

/-- The values of a section's keys: by name from a mapping, by position from a list. -/
def fields? (names : List String) : Setting → Option (List (Option Setting))
  | map entries => some (names.map fun n => find? n entries)
  | list elements => some ((List.range names.length).map fun i => elements[i]?)
  | _ => none

/-- The value of a setting that may be missing. -/
def decode? {α : Type} (f : Setting → Option α) (dflt : α) : Option Setting → Option α
  | none => some dflt
  | some s => f s

end Setting

namespace Logging

def ofSetting? (s : Setting) : Option Logging := do
  match ← s.fields? ["level", "path"] with
  | [level, path] =>
    let level ← Setting.decode? (Setting.asName? Level.ofName?) .info level
    let path? ← Setting.decode? Setting.asPath? none path
    pure ⟨level, path?⟩
  | _ => none

end Logging

namespace Output

def ofSetting? (s : Setting) : Option Output := do
  match ← s.fields? ["path", "pretty"] with
  | [path, pretty] =>
    let path? ← Setting.decode? Setting.asPath? none path
    let pretty ← Setting.decode? Setting.asBool? true pretty
    pure ⟨path?, pretty⟩
  | _ => none

end Output

namespace Config

def ofSetting? : Setting → Option Config
  | .map entries => do
    let mode ← Setting.decode? (Setting.asName? Mode.ofName?) .relaxed
      (Setting.find? "mode" entries)
    let logging ← Setting.decode? Logging.ofSetting? {} (Setting.find? "logging" entries)
    let output ← Setting.decode? Output.ofSetting? {} (Setting.find? "output" entries)
    pure ⟨mode, logging, output⟩
  | _ => none

/-! ## From the command line -/

/-- What the arguments make of a configuration. -/
def override (a : Arguments) (c : Config) : Config where
  mode := if a.strict then .strict else if a.relaxed then .relaxed else c.mode
  logging := ⟨a.level?.getD c.logging.level, c.logging.path?⟩
  output := ⟨a.output?.or c.output.path?, c.output.pretty && !a.compact⟩

end Config

end SdlSchema.Cli
