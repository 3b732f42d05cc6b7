import SdlSchema.Cli.ConfigSchema
import SdlSchema.Cli.Run
import SdlSchema.Json.Text

/-!
# The program

`gql2jsonschema [SCHEMA]` converts a GraphQL schema definition document into
JSON Schema.  Under the name `config-schema` the program prints the schema of
its configuration files instead.  All that is decided is decided by `Cli.run`;
here are the real files, the environment of the process and its streams.
-/

namespace SdlSchema.Program

open Cli (Environment Host LogSink Outcome)

/-! ## The process -/

/-- All that is left in a stream, after what was read already. -/
partial def readToEnd (stream : IO.FS.Stream) (content : ByteArray) : IO ByteArray := do
  let chunk ← stream.read 65536
  if chunk.isEmpty then return content else readToEnd stream (content ++ chunk)

/-- The variable that is written with an equals sign after its name. -/
def variableOf? (bytes : List UInt8) : Option (String × String) := do
  let text ← String.fromUTF8? ⟨bytes.toArray⟩
  let name := text.toList.takeWhile (· ≠ '=')
  let value := text.toList.dropWhile (· ≠ '=')
  return (String.ofList name, String.ofList (value.drop 1))

/-- The variables of the process, as far as the system shows them. -/
def environment : IO Environment := do
  try
    let content ← IO.FS.readBinFile "/proc/self/environ"
    return (content.toList.splitOn 0).filterMap variableOf?
  catch _ => return []

/-! ## Files -/

/-- Tells whether an action can be done. -/
def succeeds (action : IO Unit) : IO Bool := do
  try
    action
    return true
  catch _ => return false

def isRegularFile (path : String) : IO Bool := do
  try
    return (← ((← IO.currentDir) / path).metadata).type == .file
  catch _ => return false

/-- A path as it reads from the working directory and from each directory above it. -/
def pathsAbove (path : String) : IO (List String) := do
  if Cli.Path.isAbsolute path then return [path]
  let directory := (← IO.currentDir).toString
  let depth := (Cli.Path.names directory).length
  return (List.range (depth + 1)).map fun n => String.join (List.replicate n "../") ++ path

def appendLines (path : String) (lines : List String) : IO Unit := do
  let file ← IO.FS.Handle.mk path .append
  lines.forM file.putStrLn

/-- The host of the process: its standard input and the files of the system. -/
def host : Host IO where
  stdin := do readToEnd (← IO.getStdin) .empty
  readFile? path := do
    try
      return some (← IO.FS.readBinFile path)
    catch _ => return none
  findFile? path := do
    try
      match ← (← pathsAbove path).findM? isRegularFile with
      | some path => return some (← IO.FS.readBinFile path)
      | none => return none
    catch _ => return none
  writeFile path content := succeeds (IO.FS.writeBinFile path content)
  openLog directory := succeeds do
    unless ← succeeds (appendLines (Cli.logPath directory) []) do
      IO.FS.createDirAll directory
      appendLines (Cli.logPath directory) []

/-! ## Messages -/

def usage : String := "Usage: gql2jsonschema [OPTIONS] [SCHEMA]

Converts a GraphQL schema definition document into JSON Schema.

Arguments:
  [SCHEMA]  The file to convert, standard input if there is none

Options:
  -c, --config <FILE>  The YAML configuration file
  -s, --strict         Write a draft-07 schema without GraphQL metadata
  -r, --relaxed        Write a draft-04 schema with GraphQL metadata
  -o, --output <FILE>  The file to write, standard output if there is none
      --compact        Write the schema on a single line
  -l, --log <LEVEL>    Log from this level on: trace, debug, info, warn or error
  -h, --help           Print this help"

def logLine (e : Event) : String := e.level.label ++ " " ++ e.message

/-- Says what an outcome leaves to be said. -/
def report (o : Outcome) : IO Unit := do
  let lines := o.logged.map logLine
  match o.sink with
  | .stderr => lines.forM IO.eprintln
  | .fallback directory => do
    IO.eprintln ("Failed to open log file in " ++ directory ++ " - falling back to stderr")
    lines.forM IO.eprintln
  | .file directory => do
    let _ ← succeeds (appendLines (Cli.logPath directory) lines)
  IO.print o.stdout
  match o.exit with
  | .success => pure ()
  | .failure f => IO.eprintln ("Error: " ++ f.message)
  | .refusal .help => IO.println usage
  | .refusal .usage => IO.eprintln ("error: unusable arguments\n\n" ++ usage)
  | .abort => IO.eprintln "error: unusable environment"

end SdlSchema.Program

open SdlSchema in
def main (args : List String) : IO UInt32 := do
  if (← IO.appPath).fileName = some "config-schema" then
    IO.println (Cli.ConfigSchema.schema.text .pretty)
    return 0
  let outcome ← Cli.run Program.host args (← Program.environment)
  Program.report outcome
  return outcome.exit.code.toUInt32
