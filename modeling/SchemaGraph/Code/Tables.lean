import SchemaGraph.Artifact.Document
import SchemaGraph.Code.Literal

/-! Generated tables of types and operations, with their look-up functions. -/
namespace SchemaGraph.Code

open Artifact (Element Attribute TypeRow OperationRow)

def elementText (e : Element) : String :=
  "ElementDef \x7b xml_name: " ++ literal e.xmlName ++ ", json_name: " ++ optional e.jsonName ++
    ", type_name: " ++ literal e.typeName ++ ", is_list: " ++ truth e.isList ++ ", json_hint: " ++
    optional e.jsonHint ++ ", json_default: " ++ optional (e.jsonDefault.map Json.compact) ++ " \x7d"

def attributeText (a : Attribute) : String :=
  "AttributeDef \x7b name: " ++ literal a.name ++ ", type_name: " ++ optional a.typeName ++ " \x7d"

def kindVariant : SimpleKind → String
  | .boolean => "Boolean"
  | .decimal => "Decimal"
  | .string => "String"
  | .enum => "Enum"
  | .listOfEnum => "List"

def kindText : Option SimpleKind → String
  | some k => "Some(SimpleKind::" ++ kindVariant k ++ ")"
  | none => "None"

def rowsField (name : String) (rows : List String) : List String :=
  if rows.isEmpty then ["        " ++ name ++ ": &[],"]
  else
    ["        " ++ name ++ ": &["] ++ rows.map (fun row => "            " ++ row ++ ",") ++
      ["        ],"]

def field (name value : String) : String := "        " ++ name ++ ": " ++ value ++ ","

def typeLines (t : TypeRow) : List String :=
  ["    TypeDef \x7b", field "name" (literal t.name), field "json_type" (optional t.jsonType)] ++
    rowsField "elements" (t.elements.map elementText) ++
    rowsField "attributes" (t.attributes.map attributeText) ++
    [field "extra_properties" (slice t.extraProperties),
      field "is_list" (truth t.isList),
      field "is_abstract" (truth t.isAbstract),
      field "simple_kind" (kindText t.simpleKind),
      field "any_attribute" (truth t.anyAttribute),
      field "text_attribute" (optional t.textAttribute),
      field "list_name" (optional t.listName),
      field "enum_values" (slice t.enumValues),
      field "list_item_type" (optional t.listItemType),
      "    \x7d,"]

def typesText (a : Artifact) : String :=
  lines (
    ["/// Every resolved type, sorted by name.",
      "pub static TYPES: &[TypeDef] = &["] ++
    a.types.flatMap typeLines ++
    ["];",
      "",
      "/// Looks up a type by name.",
      "#[must_use]",
      "pub fn lookup_type(name: &str) -> Option<&'static TypeDef> \x7b",
      "    TYPES",
      "        .binary_search_by(|t| t.name.cmp(name))",
      "        .ok()",
      "        .map(|i| &TYPES[i])",
      "\x7d",
      ""])

def operationLines (o : OperationRow) : List String :=
  ["    OperationDef \x7b"] ++ o.fields.map (fun (name, s) => field name (literal s)) ++ ["    \x7d,"]

def operationsText (a : Artifact) : String :=
  lines (
    ["/// Type holding every request header element.",
      "pub const REQUEST_HEADERS: Option<&str> = " ++ optional a.requestHeaders ++ ";",
      "",
      "/// Type holding every response header element.",
      "pub const RESPONSE_HEADERS: Option<&str> = " ++ optional a.responseHeaders ++ ";",
      "",
      "/// Every operation, sorted by name.",
      "pub static OPERATIONS: &[OperationDef] = &["] ++
    a.operations.flatMap operationLines ++
    ["];",
      "",
      "/// Looks up an operation by name.",
      "#[must_use]",
      "pub fn lookup_operation(name: &str) -> Option<&'static OperationDef> \x7b",
      "    OPERATIONS",
      "        .binary_search_by(|op| op.name.cmp(name))",
      "        .ok()",
      "        .map(|i| &OPERATIONS[i])",
      "\x7d",
      ""])

end SchemaGraph.Code
