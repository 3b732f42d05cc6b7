/-!
# Paths

A path is a text in which slashes part names.  It starts at the root if it
starts with a slash.  Names and paths have greatest lengths, which are counted
in bytes.
-/

namespace SdlSchema.Cli.Path

/-- No name has more bytes than this. -/
def nameLimit : Nat := 255

/-- Every path has fewer bytes than this. -/
def limit : Nat := 4096

/-- The names in a path, without those that stay where they are. -/
def names (path : String) : List String :=
  ((path.toList.splitOn '/').map String.ofList).filter fun p => p ≠ "" && p ≠ "."

def isAbsolute (path : String) : Bool := path.toList.head? = some '/'

/-- Ends in a way that only a directory can match. -/
def isDirectory (path : String) : Bool :=
  match (path.toList.splitOn '/').getLast? with
  | some [] => true
  | some ['.'] => true
  | some ['.', '.'] => true
  | _ => false

/-- A path that is not too long and has no NUL. -/
def isUsable (path : String) : Bool := path.utf8ByteSize < limit && !path.toList.contains '\x00'

/-- The path of a name in a directory, which is the working directory if it has no name. -/
def join (directory name : String) : String :=
  if directory.isEmpty then name
  else if directory.toList.getLast? = some '/' then directory ++ name
  else directory ++ "/" ++ name

end SdlSchema.Cli.Path
