import SdlSchema.Cli.Path

/-!
# Hosts

What a run does to the world around it: it reads standard input and files,
opens a log file and writes the schema to a file.  A run is stated over any
host, so that the same definitions work on real files and on a file tree that
is a value.
-/

namespace SdlSchema.Cli

/-- The means of a run, as actions of the monad `m`. -/
structure Host (m : Type → Type) where
  stdin : m ByteArray
  /-- The content of the file under a path, if it can be read. -/
  readFile? : String → m (Option ByteArray)
  /-- The content of the first file under a path in the working directory or in one above it.  An
  absolute path leads to one file only. -/
  findFile? : String → m (Option ByteArray)
  /-- Writes a file with this content under a path, over one that is there, and tells whether it
  could. -/
  writeFile : String → ByteArray → m Bool
  /-- Opens the log file in a directory, making both if need be, and tells whether it could. -/
  openLog : String → m Bool

def logFileName : String := "gql2jsonschema.log"

/-- The path of the log file in a directory. -/
def logPath (directory : String) : String := Path.join directory logFileName

end SdlSchema.Cli
