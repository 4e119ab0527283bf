import SchemaGraph.Code.Enumeration
import SchemaGraph.Code.Tables

/-! A whole module of generated code: declarations, tables and enumerations. -/
namespace SchemaGraph.Code

/-- The declarations that the tables refer to. -/
def declarations : List String :=
  ["/// Value class of a simple type.",
    "#[derive(Debug, Clone, Copy, PartialEq, Eq)]",
    "pub enum SimpleKind \x7b",
    "    Boolean,",
    "    Decimal,",
    "    String,",
    "    Enum,",
    "    List,",
    "\x7d",
    "",
    "/// One element of a type, in serialization order.",
    "#[derive(Debug, Clone, Copy)]",
    "pub struct ElementDef \x7b",
    "    pub xml_name: &'static str,",
    "    pub json_name: Option<&'static str>,",
    "    pub type_name: &'static str,",
    "    pub is_list: bool,",
    "    pub json_hint: Option<&'static str>,",
    "    /// Default value as compact JSON.",
    "    pub json_default: Option<&'static str>,",
    "\x7d",
    "",
    "/// One attribute of a type.",
    "#[derive(Debug, Clone, Copy)]",
    "pub struct AttributeDef \x7b",
    "    pub name: &'static str,",
    "    pub type_name: Option<&'static str>,",
    "\x7d",
    "",
    "/// One resolved type.",
    "#[derive(Debug, Clone, Copy)]",
    "pub struct TypeDef \x7b",
    "    pub name: &'static str,",
    "    pub json_type: Option<&'static str>,",
    "    pub elements: &'static [ElementDef],",
    "    pub attributes: &'static [AttributeDef],",
    "    pub extra_properties: &'static [&'static str],",
    "    pub is_list: bool,",
    "    pub is_abstract: bool,",
    "    pub simple_kind: Option<SimpleKind>,",
    "    pub any_attribute: bool,",
    "    pub text_attribute: Option<&'static str>,",
    "    pub list_name: Option<&'static str>,",
    "    pub enum_values: &'static [&'static str],",
    "    pub list_item_type: Option<&'static str>,",
    "\x7d",
    "",
    "/// One service operation.",
    "#[derive(Debug, Clone, Copy)]",
    "pub struct OperationDef \x7b",
    "    pub name: &'static str,",
    "    pub action: &'static str,",
    "    pub body_type: &'static str,",
    "    pub request_type: &'static str,",
    "    pub request: &'static str,",
    "    pub response_element: &'static str,",
    "    pub response_name: &'static str,",
    "    pub response: &'static str,",
    "\x7d",
    ""]

def banner (a : Artifact) : List String :=
  ["// Code generated by xsdgraph; DO NOT EDIT.",
    "// " ++ toString a.types.length ++ " types, " ++ toString a.operations.length ++ " operations.",
    ""]

def moduleText (a : Artifact) : String :=
  lines (banner a ++ declarations) ++ typesText a ++ operationsText a ++ enumerationsText a

end SchemaGraph.Code
