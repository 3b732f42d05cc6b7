import SdlSchema.Cli.Arguments
import SdlSchema.Cli.Config
import SdlSchema.Cli.Environment
import SdlSchema.Cli.Host
import SdlSchema.Cli.LogFilter
import SdlSchema.Cli.Yaml.Document
import SdlSchema.Convert.Document

/-!
# Runs of the program

A run reads its configuration, opens its log, reads the source, converts it and
writes the schema, in this order; the first step that fails ends it.  What it
does to the world it does through its host; its outcome is all else.
-/

namespace SdlSchema.Cli

/-- What ends a run that was understood. -/
inductive Failure where
  /-- The configuration from the given file, or from the environment alone, is unusable. -/
  | config (path? : Option String)
  /-- The source in the given file, or on standard input, cannot be read. -/
  | source (path? : Option String)
  | conversion (e : Error)
  /-- The schema cannot be written to the given file. -/
  | output (path : String)
  deriving DecidableEq

namespace Failure

/-- The text that is shown for a failure. -/
def message : Failure → String
  | config (some path) => "Failed to read config file " ++ path
  | config none => "Failed to read config from env"
  | source (some path) => "Failed to read schema file " ++ path
  | source none => "Failed to read schema from stdin"
  | conversion e => e.message
  | output path => "Failed to write " ++ path

end Failure

/-- How a run ends. -/
inductive Exit where
  | success
  | failure (f : Failure)
  | refusal (r : Refusal)
  /-- The environment cannot be handled. -/
  | abort
  deriving DecidableEq

namespace Exit

/-- The exit code of the process. -/
def code : Exit → UInt8
  | success => 0
  | failure _ => 1
  | refusal .usage => 2
  | refusal .help => 0
  | abort => 101

end Exit

/-- Where logged events go. -/
inductive LogSink where
  | stderr
  /-- Standard error, since the log file in the given directory could not be opened. -/
  | fallback (directory : String)
  /-- The log file in the given directory. -/
  | file (directory : String)
  deriving DecidableEq

/-- What a run leaves to be said. -/
structure Outcome where
  exit : Exit
  stdout : String
  sink : LogSink
  logged : List Event

variable {m : Type → Type} [Monad m]

/-! ## Configuration -/

/-- The settings in the content of a configuration file; without a file there are none. -/
def fileSettings? : Option ByteArray → Option Setting
  | none => some (.map [])
  | some content => (String.fromUTF8? content).bind Yaml.ofText?

/-- The settings of the environment over those of the configuration file, which are a mapping. -/
def settings? (environment : Setting) (content? : Option ByteArray) : Option Setting :=
  match fileSettings? content? with
  | some (.map entries) => some (environment.merge (.map entries))
  | _ => none

/-- The configuration of a run, unless its sources make it unusable. -/
def config? (args : Arguments) (environment : Setting) (content? : Option ByteArray) :
    Option Config :=
  ((settings? environment content?).bind Config.ofSetting?).map (Config.override args)

/-- The content of the configuration file, if one is named and can be read. -/
def readConfigFile (host : Host m) (args : Arguments) : m (Option ByteArray) :=
  match args.config? with
  | none => pure none
  | some path => host.findFile? path

/-! ## Logging -/

/-- Opens the log where the configuration puts it, or else standard error. -/
def openLog (host : Host m) (logging : Logging) : m LogSink := do
  match logging.path? with
  | none => pure .stderr
  | some directory =>
    if ← host.openLog directory then pure (.file directory) else pure (.fallback directory)

/-- The filter for the configured level and the variable of the environment. -/
def logFilter (logging : Logging) (env : Environment) : LogFilter :=
  .ofVariable logging.level (env.get? "RUST_LOG")

/-! ## Source and schema -/

/-- The source text, if it can be read and is UTF-8. -/
def readSource (host : Host m) (args : Arguments) : m (Option String) := do
  match args.schema? with
  | none => pure (String.fromUTF8? (← host.stdin))
  | some path => pure ((← host.readFile? path).bind String.fromUTF8?)

/-- Converts what was read as the source. -/
def document (args : Arguments) (mode : Mode) :
    Option String → List Event × Except Failure Schema.Document
  | none => ([], .error (.source args.schema?))
  | some source =>
    let reported := convertSourceReported mode source
    match reported.result with
    | .error e => (reported.events, .error (.conversion e))
    | .ok d => (reported.events ++ [.finished d.definitions.size], .ok d)

/-- The schema as it is written. -/
def render (output : Output) (d : Schema.Document) : String :=
  d.text (if output.pretty then .pretty else .compact) ++ "\n"

/-- Writes the text to its place: the exit, and what goes to standard output. -/
def deliver (host : Host m) (output : Output) (text : String) : m (Exit × String) := do
  match output.path? with
  | none => pure (.success, text)
  | some path =>
    if ← host.writeFile path text.toUTF8 then pure (.success, "")
    else pure (.failure (.output path), "")

/-! ## The whole run -/

/-- A run whose configuration is known. -/
def runWith (host : Host m) (args : Arguments) (config : Config) (env : Environment) :
    m Outcome := do
  let sink ← openLog host config.logging
  let (events, result) := document args config.mode (← readSource host args)
  let logged := (.started config.mode :: events).filter (logFilter config.logging env).admits
  match result with
  | .error f => pure ⟨.failure f, "", sink, logged⟩
  | .ok d => do
    let (exit, stdout) ← deliver host config.output (render config.output d)
    pure ⟨exit, stdout, sink, logged⟩

/-- The run for a command line and an environment. -/
def run (host : Host m) (args : List String) (env : Environment) : m Outcome := do
  match Arguments.read args with
  | .error r => pure ⟨.refusal r, "", .stderr, []⟩
  | .ok args =>
    match env.settings? with
    | none => pure ⟨.abort, "", .stderr, []⟩
    | some environment =>
      match config? args environment (← readConfigFile host args) with
      | none => pure ⟨.failure (.config args.config?), "", .stderr, []⟩
      | some config => runWith host args config env

end SdlSchema.Cli
