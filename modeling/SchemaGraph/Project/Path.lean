/-! Paths are texts whose names are separated by slashes.  Nothing here looks at files. -/
namespace SchemaGraph.Path

/-- What stands between the slashes, empty parts included. -/
def split : List Char → List (List Char)
  | [] => [[]]
  | c :: r =>
    if c = '/' then [] :: split r
    else
      match split r with
      | [] => [[c]]
      | s :: t => (c :: s) :: t

def segments (path : String) : List String := (split path.toList).map String.ofList

def isAbsolute (path : String) : Bool := path.startsWith "/"

/-- A path that is meant relative to a directory.  An absolute path stays; an empty directory adds
nothing. -/
def join (directory path : String) : String :=
  if isAbsolute path then path
  else if directory.isEmpty || directory.endsWith "/" then directory ++ path
  else directory ++ "/" ++ path

def isStep (segment : String) : Bool := segment ≠ "" && segment ≠ "."

def fromLastStep : List String → List String
  | [] => []
  | [s] => if s.isEmpty then [] else [s]
  | s :: t :: r => if isStep s then s :: t :: r else fromLastStep (t :: r)

def directory (path : String) : String :=
  match (fromLastStep (fromLastStep (segments path).reverse).tail).reverse with
  | [] => if isAbsolute path then "/" else ""
  | parts => "/".intercalate parts

/-- A path, not empty, made absolute.  Dots and repeated slashes go; steps upwards, two slashes at the
beginning and a slash at the end stay. -/
def absolute (workingDirectory path : String) : String :=
  let start :=
    if !isAbsolute path then workingDirectory
    else if path.startsWith "//" && !path.startsWith "///" then "//"
    else "/"
  let full := ((segments path).filter isStep).foldl join start
  if path.endsWith "/" then join full "" else full

end SchemaGraph.Path
