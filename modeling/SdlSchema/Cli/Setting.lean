/-!
# Settings

What a configuration source says before it is known what it means: a tree of
scalars, lists and mappings.  Two trees are merged by going down into mappings
that both have; where they differ in anything else the first one counts.
-/

namespace SdlSchema.Cli

/-- Of numbers only that they are numbers matters. -/
inductive Setting where
  | null
  | bool (b : Bool)
  | number
  | text (s : String)
  | list (elements : List Setting)
  | map (entries : List (String × Setting))

namespace Setting

instance : Inhabited Setting := ⟨null⟩

/-- The value of the first entry with the given key. -/
def find? (key : String) (entries : List (String × Setting)) : Option Setting :=
  (entries.find? fun e => e.1 = key).map Prod.snd

/-- The value that a mapping holds under a key. -/
def get? (key : String) : Setting → Option Setting
  | map entries => find? key entries
  | _ => none

def without (key : String) (entries : List (String × Setting)) : List (String × Setting) :=
  entries.filter fun e => e.1 ≠ key

/-- Replaces what is under the key. -/
def put (key : String) (value : Setting) (entries : List (String × Setting)) :
    List (String × Setting) :=
  (key, value) :: without key entries

/-- A mapping in which the last of equal keys counts. -/
def ofEntries (entries : List (String × Setting)) : Setting :=
  map (entries.foldl (fun m e => put e.1 e.2 m) [])

mutual

/-- The first tree over the second one. -/
def merge : Setting → Setting → Setting
  | map as, map bs => map (mergeEntries as bs)
  | a, _ => a

def mergeEntries : List (String × Setting) → List (String × Setting) → List (String × Setting)
  | [], bs => bs
  | (k, a) :: as, bs =>
    match find? k bs with
    | none => (k, a) :: mergeEntries as bs
    | some b => (k, merge a b) :: mergeEntries as (without k bs)

end

/-- A value under a path of keys. -/
def nest : List String → Setting → Setting
  | [], v => v
  | k :: ks, v => map [(k, nest ks v)]

end Setting

end SdlSchema.Cli
