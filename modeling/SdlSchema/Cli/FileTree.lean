import SdlSchema.Cli.Host

/-!
# File trees

The files that a run can see.  A path is followed name by name through
directories that exist, from the root if it starts with a slash and else from
the working directory.  Only paths that lead to a name in an existing directory
can be written to.
-/

namespace SdlSchema.Cli

/-- What can stand at a location. -/
inductive Node where
  | file (content : ByteArray)
  | directory
  /-- Reading it gives the input, and what is written to it is added to the output. -/
  | device (input output : ByteArray)

/-- The names that lead to a node from the root, which has none. -/
abbrev Location := List String

/-- The nodes of a system and its working directory.  Of two entries for a location the first one
counts. -/
structure FileTree where
  nodes : List (Location × Node)
  home : Location

namespace FileTree

instance : Inhabited FileTree := ⟨⟨[], []⟩⟩

/-- What stands at a location. -/
def node? (t : FileTree) (l : Location) : Option Node :=
  if l.isEmpty then some .directory
  else (t.nodes.find? fun n => n.1 = l).map Prod.snd

def isDirectory (t : FileTree) (l : Location) : Bool :=
  match t.node? l with
  | some .directory => true
  | _ => false

/-- Puts a node at a location. -/
def put (t : FileTree) (l : Location) (n : Node) : FileTree :=
  { t with nodes := (l, n) :: t.nodes.filter fun m => m.1 ≠ l }

/-! ## Paths -/

/-- Follows names from a location.  All but the last one must be directories; above the root is the
root. -/
def follow (t : FileTree) (l : Location) : List String → Option Location
  | [] => some l
  | name :: names =>
    if !t.isDirectory l then none
    else if name = ".." then follow t l.dropLast names
    else if Path.nameLimit < name.utf8ByteSize then none
    else follow t (l ++ [name]) names

/-- Where a path starts that belongs to the given directory. -/
def start (directory : Location) (path : String) : Location :=
  if Path.isAbsolute path then [] else directory

/-- The location to which a path leads from a directory. -/
def locateFrom? (t : FileTree) (directory : Location) (path : String) : Option Location :=
  if !path.isEmpty && Path.isUsable path then t.follow (start directory path) (Path.names path)
  else none

/-- The location to which a path leads. -/
def locate? (t : FileTree) (path : String) : Option Location := t.locateFrom? t.home path

/-! ## Files -/

/-- What can be read under a path. -/
def readFile? (t : FileTree) (path : String) : Option ByteArray :=
  if Path.isDirectory path then none
  else match (t.locate? path).bind t.node? with
    | some (.file content) => some content
    | some (.device input _) => some input
    | _ => none

/-- The directories from a location up to the root. -/
def ancestors : Nat → Location → List Location
  | 0, l => [l]
  | n + 1, l => l :: ancestors n l.dropLast

/-- The content of the first file, not counting devices, to which a path leads from the working
directory or from one above it. -/
def findFile? (t : FileTree) (path : String) : Option ByteArray :=
  if Path.isDirectory path then none
  else (ancestors t.home.length t.home).findSome? fun directory =>
    match (t.locateFrom? directory path).bind t.node? with
    | some (.file content) => some content
    | _ => none

/-- Where a file can be written under a path. -/
def writable? (t : FileTree) (path : String) : Option Location :=
  if Path.isDirectory path then none
  else match t.locate? path with
    | some l => if t.isDirectory l then none else some l
    | none => none

/-- Writes under a path, over a file that is there. -/
def writeFile? (t : FileTree) (path : String) (content : ByteArray) : Option FileTree :=
  (t.writable? path).map fun l =>
    match t.node? l with
    | some (.device input output) => t.put l (.device input (output ++ content))
    | _ => t.put l (.file content)

/-- Makes a file under a path unless there is one. -/
def touch? (t : FileTree) (path : String) : Option FileTree :=
  (t.writable? path).map fun l => if (t.node? l).isSome then t else t.put l (.file .empty)

/-- Follows names and makes the directories that are missing, up to the first that cannot be made.
Tells also whether there was none of these. -/
def makeDirectories (t : FileTree) (l : Location) : List String → FileTree × Bool
  | [] => (t, true)
  | name :: names =>
    if name = ".." then makeDirectories t l.dropLast names
    else if Path.nameLimit < name.utf8ByteSize then (t, false)
    else
      let l := l ++ [name]
      match t.node? l with
      | some .directory => makeDirectories t l names
      | some _ => (t, false)
      | none => makeDirectories (t.put l .directory) l names

/-- Makes the directory under a path, with those above it. -/
def makeDirectory (t : FileTree) (path : String) : FileTree × Bool :=
  if Path.isUsable path then t.makeDirectories (start t.home path) (Path.names path) else (t, false)

/-! ## As a host -/

/-- The change if there is one, and whether there is. -/
def changed (t : FileTree) : Option FileTree → FileTree × Bool
  | some t => (t, true)
  | none => (t, false)

/-- Opens the log file in a directory, which is made if that is necessary. -/
def openLog (t : FileTree) (directory : String) : FileTree × Bool :=
  match t.touch? (logPath directory) with
  | some t => (t, true)
  | none =>
    match t.makeDirectory directory with
    | (t, true) => t.changed (t.touch? (logPath directory))
    | (t, false) => (t, false)

/-- The host on which a run works with a file tree. -/
def host (stdin : ByteArray) : Host (StateM FileTree) where
  stdin := pure stdin
  readFile? path := fun t => (t.readFile? path, t)
  findFile? path := fun t => (t.findFile? path, t)
  writeFile path content := fun t => (t.changed (t.writeFile? path content)).swap
  openLog directory := fun t => (t.openLog directory).swap

end FileTree

end SdlSchema.Cli
