import SchemaGraph.Artifact.Bisect
import SchemaGraph.Artifact.Labels
import SchemaGraph.Graph.Basic

/-! A finished graph as tables that can be written out.  Handles are replaced by emitted names; types,
attributes and operations are sorted by name, and elements keep their order. -/
namespace SchemaGraph

namespace Artifact

structure Element where
  xmlName : String
  /-- The serialized name where it differs. -/
  jsonName : Option String
  typeName : String
  isList : Bool
  jsonHint : Option String
  /-- What is serialized for an absent element. -/
  jsonDefault : Option Json

structure Attribute where
  name : String
  typeName : Option String

structure TypeRow where
  name : String
  /-- The name in serialized form; inline types have none. -/
  jsonType : Option String
  elements : List Element
  attributes : List Attribute
  extraProperties : List String
  isList : Bool
  isAbstract : Bool
  simpleKind : Option SimpleKind
  anyAttribute : Bool
  textAttribute : Option String
  listName : Option String
  enumValues : List String
  listItemType : Option String

structure OperationRow where
  /-- The name under which the operation is found. -/
  name : String
  action : String
  /-- The serialized name of the type of the request's body. -/
  bodyType : String
  /-- The serialized name of the type of the request. -/
  requestType : String
  request : String
  responseElement : String
  responseName : String
  response : String

end Artifact

structure Artifact where
  types : List Artifact.TypeRow
  operations : List Artifact.OperationRow
  requestHeaders : Option String
  responseHeaders : Option String
  diagnostics : List Diagnostic

structure ArtifactOptions where
  /-- What follows the name of a type in its serialized form. -/
  suffix : String := ":#Exchange"
  labels : Labels := .standard

inductive ArtifactError
  /-- An operation needs an element that is not global. -/
  | unknownElement (element : QName) (operation : String)
deriving DecidableEq

def ArtifactError.message : ArtifactError → String
  | .unknownElement element operation =>
    "unknown element '" ++ element.clark ++ "' in operation '" ++ operation ++ "'"

namespace Artifact

variable (options : ArtifactOptions) (g : TypeGraph)

def typeName (id : TypeId) : String := options.labels.shorten (g.types.get id).name

def element (entry : String × ElementDescriptor) : Element :=
  let (key, d) := entry
  { xmlName := options.labels.shorten (d.sourceName.getD (QName.ofClark key))
    jsonName := d.serializedName
    typeName := typeName options g d.typeId
    isList := d.isList
    jsonHint := d.formatHint
    jsonDefault := d.defaultValue }

def attributes (t : TypeEntry) : List Attribute :=
  (t.attributes.entries.map fun (name, id) => ⟨name, id.map (typeName options g)⟩).mergeSort
    (·.name ≤ ·.name)

def typeRow (t : TypeEntry) : TypeRow where
  name := options.labels.shorten t.name
  jsonType := t.serializedType options.suffix
  elements := t.elements.entries.map (element options g)
  attributes := attributes options g t
  extraProperties := t.extraProperties
  isList := t.isList
  isAbstract := t.isAbstract
  simpleKind := t.simpleKind
  anyAttribute := t.anyAttribute
  textAttribute := t.textAttribute
  listName := t.listName
  enumValues := t.enumValues
  listItemType := t.listItem.map (typeName options g)

def elementType (operation : String) (name : QName) : Except ArtifactError String :=
  match g.elements.get? name.clark with
  | some d => .ok (typeName options g d.typeId)
  | none => .error (.unknownElement name operation)

def operationRow (entry : String × Operation) : Except ArtifactError OperationRow := do
  let (name, op) := entry
  let request ← elementType options g name op.input
  let response ← elementType options g name op.output
  return {
    name
    action := op.action
    bodyType := op.action ++ "Request" ++ options.suffix
    requestType := op.action ++ "JsonRequest" ++ options.suffix
    request
    responseElement := options.labels.shorten op.output
    responseName := op.output.localName
    response }

def ofGraph : Except ArtifactError Artifact := do
  let operations ← g.operations.entries.mapM (operationRow options g)
  return {
    types := (g.types.entries.map (typeRow options g)).mergeSort (·.name ≤ ·.name)
    operations := operations.mergeSort (·.name ≤ ·.name)
    requestHeaders := g.requestHeaders.map (typeName options g)
    responseHeaders := g.responseHeaders.map (typeName options g)
    diagnostics := g.diagnostics }

def type? (a : Artifact) (name : String) : Option TypeRow :=
  bisect? (fun t => compare t.name name) a.types.toArray

end Artifact

end SchemaGraph
