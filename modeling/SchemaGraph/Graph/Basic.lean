import SchemaGraph.Graph.Registry
import SchemaGraph.Service

/-! A resolved type graph: types, global elements, operations and what was remarked on the way. -/
namespace SchemaGraph

inductive DiagnosticKind
  /-- An element occurred twice in one content; the first occurrence counts. -/
  | duplicateElement
  /-- A header element without a type was left out. -/
  | skippedHeaderElement
  | skippedWildcard
  /-- An abstract type has no concrete subtype. -/
  | noConcreteSubtypes
deriving DecidableEq

def DiagnosticKind.text : DiagnosticKind → String
  | .duplicateElement => "duplicate element"
  | .skippedHeaderElement => "skipped header element"
  | .skippedWildcard => "skipped wildcard"
  | .noConcreteSubtypes => "no concrete subtypes"

structure Diagnostic where
  kind : DiagnosticKind
  subject : String
  message : String
deriving DecidableEq

def Diagnostic.text (d : Diagnostic) : String :=
  d.kind.text ++ " '" ++ d.subject ++ "': " ++ d.message

structure TypeGraph where
  types : Registry
  elements : ElementMap
  operations : OrderedMap String Operation
  requestHeaders : Option TypeId
  responseHeaders : Option TypeId
  /-- Header elements without a type, left out of `elements`. -/
  skippedHeaders : List String
  diagnostics : List Diagnostic
deriving Inhabited

def TypeGraph.empty : TypeGraph := ⟨.empty, ∅, ∅, none, none, [], []⟩

end SchemaGraph
