import SchemaGraph.Artifact.Basic
import SchemaGraph.Code.Identifier
import SchemaGraph.Code.Literal

/-! Generated enumerations.  Each has one variant per literal and two functions that go from one to the
other, whose cases are tried in order. -/
namespace SchemaGraph.Code

structure Enumeration where
  /-- The emitted name of the type. -/
  schemaName : String
  name : String
  /-- The variants with their literals. -/
  variants : List (String × String)
deriving DecidableEq

namespace Enumeration

def variantNames (literals : List String) : List String := freshNames [] (literals.map identifier)

def ofLiterals (schemaName name : String) (literals : List String) : Enumeration :=
  ⟨schemaName, name, (variantNames literals).zip literals⟩

def literal? (e : Enumeration) (variant : String) : Option String := e.variants.lookup variant

def variant? (e : Enumeration) (literal : String) : Option String :=
  (e.variants.find? (·.2 == literal)).map (·.1)

def variantLines (v : String × String) : List String :=
  ["    /// `" ++ v.2 ++ "`.", "    " ++ v.1 ++ ","]

def literalCase (v : String × String) : String :=
  "            Self::" ++ v.1 ++ " => " ++ literal v.2 ++ ","

def variantCase (v : String × String) : String :=
  "            " ++ literal v.2 ++ " => Some(Self::" ++ v.1 ++ "),"

def text (e : Enumeration) : String :=
  lines (
    ["/// Values of `" ++ e.schemaName ++ "`.",
      "#[derive(Debug, Clone, Copy, PartialEq, Eq, Hash)]",
      "pub enum " ++ e.name ++ " \x7b"] ++
    e.variants.flatMap variantLines ++
    ["\x7d",
      "",
      "impl " ++ e.name ++ " \x7b",
      "    /// Returns the schema literal.",
      "    #[must_use]",
      "    pub const fn as_str(self) -> &'static str \x7b",
      "        match self \x7b"] ++
    e.variants.map literalCase ++
    ["        \x7d",
      "    \x7d",
      "",
      "    /// Parses a schema literal.",
      "    #[must_use]",
      "    pub fn parse(value: &str) -> Option<Self> \x7b",
      "        match value \x7b"] ++
    e.variants.map variantCase ++
    ["            _ => None,",
      "        \x7d",
      "    \x7d",
      "\x7d",
      ""])

end Enumeration

def declaredNames : List String :=
  ["SimpleKind", "ElementDef", "AttributeDef", "TypeDef", "OperationDef"]

def splitLabel (name : String) : String × String :=
  let r := name.toList.reverse
  match r.dropWhile (· != ':') with
  | [] => ("", name)
  | _ :: label =>
    (String.ofList label.reverse, String.ofList (r.takeWhile (· != ':')).reverse)

/-- The name of an enumeration: made from the local name, or from the label and the local name if the first
is taken. -/
def enumerationName (taken : List String) (schemaName : String) : String :=
  let (label, localName) := splitLabel schemaName
  let name := identifier localName
  if taken.contains name then fresh taken (identifier (label ++ "_" ++ localName)) else name

def isEnumeration (t : Artifact.TypeRow) : Bool :=
  t.simpleKind == some .enum && !t.enumValues.isEmpty

/-- The enumerations of a list of types; `taken` holds names that are in use. -/
def enumerationsFrom (taken : List String) : List Artifact.TypeRow → List Enumeration
  | [] => []
  | t :: rest =>
    if isEnumeration t then
      let name := enumerationName taken t.name
      .ofLiterals t.name name t.enumValues :: enumerationsFrom (name :: taken) rest
    else enumerationsFrom taken rest

def enumerations (a : Artifact) : List Enumeration := enumerationsFrom declaredNames a.types

def enumerationsText (a : Artifact) : String := String.join ((enumerations a).map Enumeration.text)

end SchemaGraph.Code
