import SchemaGraph.Artifact.Document
import SchemaGraph.Code.Module
import SchemaGraph.Yaml.Writing

/-! The text of a graph in one of three formats. -/
namespace SchemaGraph

inductive OutputFormat
  | json
  | yaml
  /-- A module of code with static tables. -/
  | rust
deriving DecidableEq

namespace OutputFormat

def ofName? (name : String) : Option OutputFormat :=
  match name.toLower with
  | "json" => some .json
  | "yaml" | "yml" => some .yaml
  | "rust" | "rs" => some .rust
  | _ => none

end OutputFormat

inductive RenderError
  | artifact (error : ArtifactError)
  | unknownFormat (name : String)
  /-- The output cannot be written. -/
  | unwritable
deriving DecidableEq

def RenderError.message : RenderError → String
  | .artifact e => e.message
  | .unknownFormat name => s!"generation error: unknown output format '{name.toLower}'"
  | .unwritable => "failed to write output"

def OutputFormat.ofName (name : String) : Except RenderError OutputFormat :=
  match ofName? name with
  | some f => .ok f
  | none => .error (.unknownFormat name)

def Artifact.text (a : Artifact) : OutputFormat → String
  | .json => a.json.pretty ""
  | .yaml => a.json.yaml
  | .rust => Code.moduleText a

def render (g : TypeGraph) (format : OutputFormat) (options : ArtifactOptions) :
    Except RenderError String :=
  match Artifact.ofGraph options g with
  | .ok a => .ok (a.text format)
  | .error e => .error (.artifact e)

end SchemaGraph
