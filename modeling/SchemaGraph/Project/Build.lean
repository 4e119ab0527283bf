import SchemaGraph.Override.Exchange
import SchemaGraph.Override.Reading
import SchemaGraph.Project.Files
import SchemaGraph.Project.Reading

/-! Compiling a project.  Documents are read in the order of the settings; the first fault ends the
work. -/
namespace SchemaGraph

abbrev Build (m : Type → Type) (α : Type) := ExceptT ConfigError m α

namespace Config

variable {m : Type → Type} [Monad m] [FileAccess m]

def readText (path : String) : Build m String := do
  match ← FileAccess.read? path with
  | some text => return text
  | none => throw (.unreadable path)

def outcome {ε α : Type} (wrap : ε → ConfigError) : Except ε α → Build m α
  | .ok a => return a
  | .error e => throw (wrap e)

def load (path : String) : Build m Config := do
  outcome id (ofText (Path.directory path) (← readText path))

variable (c : Config)

def overrideTable : Build m OverrideTable := do
  match c.overrides with
  | none => return {}
  | some (.builtin name) =>
    if name = "exchange" then return .exchange else throw (.unknownBuiltin name)
  | some (.file path) =>
    match ← FileAccess.read? (c.resolvePath path) with
    | some text => outcome .override (OverrideTable.ofText text)
    | none => throw (.override .unreadable)

def addSchema (set : DeclarationSet) (path : String) : Build m DeclarationSet := do
  outcome (.document path) (set.addText (← readText path))

def declarations : Build m DeclarationSet := do
  if c.schemas.isEmpty then throw .noSchemas
  let set ← (c.schemas.map c.resolvePath).foldlM addSchema .empty
  outcome .set (Stateful.result DeclarationSet.link set)

def operations : Build m (List Operation) := do
  match c.wsdl.map c.resolvePath with
  | none => return []
  | some path => outcome (.document path) (Operation.allOfText (← readText path))

def graph : Build m TypeGraph := do
  let set ← c.declarations
  let operations ← c.operations
  let overrides ← c.overrideTable
  let options ← outcome id c.resolveOptions
  outcome .compile (compile set operations overrides options)

end Config

end SchemaGraph
