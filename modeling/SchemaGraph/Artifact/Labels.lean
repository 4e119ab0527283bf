import SchemaGraph.Graph.Registry

/-! Names as they are emitted: qualified names with a label in place of the namespace, and the names that
types have in their serialized form. -/
namespace SchemaGraph

/-- The labels of namespaces.  Of several labels for one namespace the last one counts. -/
structure Labels where
  labels : OrderedMap String String

namespace Labels

def standard : Labels := ⟨(∅ : OrderedMap String String).insert QName.xsdUri "xs"⟩

def bind (l : Labels) (label uri : String) : Labels := ⟨l.labels.insert uri label⟩

/-- The standard labels and then those of a list of pairs of label and namespace. -/
def ofList (pairs : List (String × String)) : Labels :=
  pairs.foldl (fun l (label, uri) => l.bind label uri) standard

def label? (l : Labels) (uri : String) : Option String := l.labels.get? uri

/-- The label and the local name; a name in a namespace without a label stays as it is. -/
def shorten (l : Labels) (name : QName) : String :=
  match name.uri with
  | none => name.localName
  | some uri =>
    match l.label? uri with
    | some label => label ++ ":" ++ name.localName
    | none => name.clark

end Labels

namespace TypeEntry

def anonymousEnding : String := "AnonType"

/-- The name of a type in its serialized form: the serialized name, or else the local name without the
ending `Type`, and then the suffix.  Inline types have none. -/
def serializedType (t : TypeEntry) (suffix : String) : Option String :=
  if t.name.localName.endsWith anonymousEnding then none
  else
    let base :=
      match t.serializedName with
      | some name => name
      | none => (t.name.localName.dropSuffix "Type").toString
    some (base ++ suffix)

end TypeEntry

end SchemaGraph
