import SchemaGraph.Artifact.Basic

/-! Tables as one JSON value.  Fields that say nothing are left out. -/
namespace SchemaGraph

def DiagnosticKind.tag : DiagnosticKind → String
  | .duplicateElement => "duplicate_element"
  | .skippedHeaderElement => "skipped_header_element"
  | .skippedWildcard => "skipped_wildcard"
  | .noConcreteSubtypes => "no_concrete_subtypes"

namespace Artifact

abbrev Field := List (String × Json)

def always (key : String) (v : Json) : Field := [(key, v)]

def optional (key : String) (v : Option Json) : Field := (v.map (key, ·)).toList

def text? (key : String) (s : Option String) : Field := optional key (s.map .string)

def items (key : String) (l : List Json) : Field := if l.isEmpty then [] else [(key, .list l)]

def mark (key : String) (b : Bool) : Field := if b then [(key, .bool true)] else []

def Element.json (e : Element) : Json :=
  .object (always "xml_name" (.string e.xmlName) ++ text? "json_name" e.jsonName ++
    always "type_name" (.string e.typeName) ++ mark "is_list" e.isList ++
    text? "json_hint" e.jsonHint ++ optional "json_default" e.jsonDefault)

def Attribute.json (a : Attribute) : Json :=
  .object (always "name" (.string a.name) ++ text? "type_name" a.typeName)

def TypeRow.json (t : TypeRow) : Json :=
  .object (always "name" (.string t.name) ++ text? "json_type" t.jsonType ++
    items "elements" (t.elements.map Element.json) ++
    items "attributes" (t.attributes.map Attribute.json) ++
    items "extra_properties" (t.extraProperties.map .string) ++ always "is_list" (.bool t.isList) ++
    mark "is_abstract" t.isAbstract ++ text? "simple_kind" (t.simpleKind.map SimpleKind.name) ++
    always "any_attribute" (.bool t.anyAttribute) ++ text? "text_attribute" t.textAttribute ++
    text? "list_name" t.listName ++ items "enum_values" (t.enumValues.map .string) ++
    text? "list_item_type" t.listItemType)

def OperationRow.fields (o : OperationRow) : List (String × String) :=
  [("name", o.name), ("action", o.action), ("body_type", o.bodyType),
    ("request_type", o.requestType), ("request", o.request),
    ("response_element", o.responseElement), ("response_name", o.responseName),
    ("response", o.response)]

def OperationRow.json (o : OperationRow) : Json :=
  .object (o.fields.map fun (key, s) => (key, .string s))

def diagnosticJson (d : Diagnostic) : Json :=
  .object [("kind", .string d.kind.tag), ("subject", .string d.subject),
    ("message", .string d.message)]

def json (a : Artifact) : Json :=
  .object (always "types" (.list (a.types.map TypeRow.json)) ++
    always "operations" (.list (a.operations.map OperationRow.json)) ++
    text? "request_headers" a.requestHeaders ++ text? "response_headers" a.responseHeaders ++
    items "diagnostics" (a.diagnostics.map diagnosticJson))

end Artifact

end SchemaGraph
