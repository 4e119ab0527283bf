import SchemaGraph.Compile
import SchemaGraph.Project.Path
import SchemaGraph.Rendering
import SchemaGraph.Text.Cut

/-! Settings of a project: which documents are compiled, with what corrections, and where the result
goes.  Paths are relative to the directory of the settings. -/
namespace SchemaGraph

inductive OverrideSource
  | builtin (name : String)
  | file (path : String)
deriving DecidableEq

structure OutputConfig where
  path : Option String := none
  format : OutputFormat := .json
deriving DecidableEq

structure Config where
  schemas : List String
  wsdl : Option String
  overrides : Option OverrideSource
  /-- The labels of namespaces, for names in the settings and for emitted names. -/
  namespaces : OrderedMap String String
  /-- Elements that can be untyped because they occur only as headers. -/
  headerOnlyElements : List String
  typeSuffix : String
  output : OutputConfig
  baseDirectory : String

inductive ConfigError
  | unreadable (path : String)
  /-- The settings are not of the expected form. -/
  | format
  | noSchemas
  | document (path : String) (error : DocumentError)
  | unknownLabel (name : String)
  | unknownBuiltin (name : String)
  | set (error : SetError)
  | override (error : OverrideError)
  | compile (error : CompileError)
deriving DecidableEq

def ConfigError.message : ConfigError → String
  | .unreadable path => s!"failed to read '{path}'"
  | .format => "invalid configuration"
  | .noSchemas => "no schema documents configured"
  | .document path e => s!"in '{path}': " ++ e.message
  | .unknownLabel name => s!"unknown prefix in '{name}'"
  | .unknownBuiltin name => s!"unknown builtin override table '{name}'"
  | .set e => e.message
  | .override e => e.message
  | .compile e => e.message

namespace Config

def standardSuffix : String := ":#Exchange"

def empty (baseDirectory : String) : Config where
  schemas := []
  wsdl := none
  overrides := none
  namespaces := ∅
  headerOnlyElements := []
  typeSuffix := standardSuffix
  output := {}
  baseDirectory

variable (c : Config)

def resolvePath (path : String) : String := Path.join c.baseDirectory path

def outputPath : Option String := c.output.path.map c.resolvePath

def labels : Labels := .ofList c.namespaces.entries

def artifactOptions : ArtifactOptions := ⟨c.typeSuffix, c.labels⟩

def qualify (name : String) : Except ConfigError QName :=
  if name.startsWith "\x7b" then .ok (QName.ofClark name)
  else
    match Text.cutString ':' name with
    | none => .ok ⟨none, name⟩
    | some (label, localName) =>
      match c.namespaces.get? label with
      | some uri => .ok ⟨some uri, localName⟩
      | none => .error (.unknownLabel name)

/-- Every namespace with a label is known except that of XML Schema itself. -/
def knownNamespaces : List String := c.namespaces.values.filter (· ≠ QName.xsdUri)

def resolveOptions : Except ConfigError ResolveOptions := do
  return ⟨c.knownNamespaces, ← c.headerOnlyElements.mapM c.qualify⟩

end Config

end SchemaGraph
