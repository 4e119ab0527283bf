import SchemaGraph.Project.Config
import SchemaGraph.Yaml.Reading

/-! Settings written in YAML. -/
namespace SchemaGraph

open Yaml (Node Fields)

namespace OverrideSource

def ofNode? : Node → Option OverrideSource
  | .map tag entries =>
    if Yaml.isLocal tag || !Node.entriesAreReadable entries then none
    else builtin <$> Yaml.onlyText? "builtin" entries
  | n => file <$> n.untypedText?

end OverrideSource

namespace OutputFormat

def ofSetting? : String → Option OutputFormat
  | "json" => some .json
  | "yaml" => some .yaml
  | "rust" => some .rust
  | _ => none

def ofNode? : Node → Option OutputFormat
  | .scalar s =>
    match s.tag with
    | some (.own name) =>
      if s.style = .plain ∧ (s.text.isEmpty ∨ Yaml.isNull s.text) then ofSetting? name else none
    | _ => ofSetting? s.text
  | .list .. | .map .. => none

end OutputFormat

def OutputConfig.ofNode? (n : Node) : Option OutputConfig := do
  let f ← n.fields? ["path", "format"]
  let path ← f.optional? "path" Node.text?
  return ⟨path, ← f.getD? "format" .json OutputFormat.ofNode?⟩

namespace Config

def names : List String :=
  ["schemas", "wsdl", "overrides", "namespaces", "header_only_elements", "type_suffix", "output"]

def ofNode? (baseDirectory : String) (n : Node) : Option Config := do
  let f ← n.fields? names
  return {
    schemas := ← f.required? "schemas" (Node.items? Node.text?)
    wsdl := ← f.optional? "wsdl" Node.text?
    overrides := ← f.optional? "overrides" OverrideSource.ofNode?
    namespaces := ← f.getD? "namespaces" ∅ (Node.entries? Node.text?)
    headerOnlyElements := ← f.getD? "header_only_elements" [] (Node.items? Node.text?)
    typeSuffix := ← f.getD? "type_suffix" standardSuffix Node.text?
    output := ← f.getD? "output" {} OutputConfig.ofNode?
    baseDirectory }

def ofText (baseDirectory text : String) : Except ConfigError Config :=
  match (Node.ofText? text).bind (ofNode? baseDirectory) with
  | some c => .ok c
  | none => .error .format

end Config

end SchemaGraph
