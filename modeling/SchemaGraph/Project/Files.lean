import SchemaGraph.OrderedMap
import SchemaGraph.Project.Path

/-! Access to files, and a tree of files in which it can be followed. -/
namespace SchemaGraph

class FileAccess (m : Type → Type) where
  /-- The text of a file; none if it cannot be read. -/
  read? (path : String) : m (Option String)
  /-- Whether a path leads to a file or a directory. -/
  occurs (path : String) : m Bool
  /-- Writes a file; false if it cannot be written. -/
  write (path text : String) : m Bool
  workingDirectory : m String

instance {m : Type → Type} {ε : Type} [Monad m] [FileAccess m] : FileAccess (ExceptT ε m) where
  read? path := ExceptT.lift (FileAccess.read? path)
  occurs path := ExceptT.lift (FileAccess.occurs path)
  write path text := ExceptT.lift (FileAccess.write path text)
  workingDirectory := ExceptT.lift FileAccess.workingDirectory

/-- Files under their places, which are the names on the way from the root.  The directories are those on
the way to a file or to the working directory. -/
structure FileTree where
  files : OrderedMap (List String) String
  workingDirectory : List String

namespace FileTree

variable (t : FileTree)

def isDirectory (place : List String) : Bool :=
  place.isPrefixOf t.workingDirectory
    || t.files.keys.any fun file => place.isPrefixOf file && place ≠ file

/-- One segment of a path, taken in a directory. -/
def step (place : List String) (segment : String) : List String :=
  if segment = ".." then place.dropLast
  else if Path.isStep segment then place ++ [segment]
  else place

def follow? (place : List String) : List String → Option (List String)
  | [] => some place
  | s :: r => if t.isDirectory place then follow? (step place s) r else none

def place? (path : String) : Option (List String) :=
  if path.isEmpty then none
  else t.follow? (if Path.isAbsolute path then [] else t.workingDirectory) (Path.segments path)

def read? (path : String) : Option String := do
  t.files.get? (← t.place? path)

def occurs (path : String) : Bool :=
  (t.place? path).any fun place => t.isDirectory place || t.files.contains place

def write? (path text : String) : Option FileTree := do
  let place ← t.place? path
  if t.isDirectory place then none
  else some { t with files := t.files.insert place text }

def ofList (workingDirectory : List String) (files : List (String × String)) : FileTree where
  files := .ofList (files.map fun (path, text) =>
    (workingDirectory ++ (Path.segments path).filter Path.isStep, text))
  workingDirectory

instance : FileAccess (StateM FileTree) where
  read? path := return (← get).read? path
  occurs path := return (← get).occurs path
  write path text := do
    match (← get).write? path text with
    | some t =>
      set t
      return true
    | none => return false
  workingDirectory := return "/" ++ "/".intercalate (← get).workingDirectory

end FileTree

end SchemaGraph
