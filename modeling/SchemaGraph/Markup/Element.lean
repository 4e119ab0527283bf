import SchemaGraph.DocumentError
import SchemaGraph.Text.Blank

/-! Elements with their attributes, children and namespace bindings.  Text content is not kept: nothing
in a schema or a service description stands in text. -/
namespace SchemaGraph.Markup

/-- Namespace bindings, innermost first.  The empty label stands for names without a label. -/
abbrev Scope := List (String × String)

def Scope.initial : Scope := [("xml", "http://www.w3.org/XML/1998/namespace")]

structure Element where
  label : Option String
  localName : String
  attributes : List (String × String)
  scope : Scope
  children : List Element
deriving Inhabited

namespace Element

def tag (e : Element) : String :=
  match e.label with
  | some label => label ++ ":" ++ e.localName
  | none => e.localName

def uri (e : Element) : Option String :=
  e.scope.lookup (e.label.getD "")

def attr? (e : Element) (key : String) : Option String :=
  e.attributes.lookup key

def attr (e : Element) (key : String) : Except DocumentError String :=
  match e.attr? key with
  | some value => .ok value
  | none => .error (.missingAttribute e.tag key)

/-- The name that a value stands for in the element's scope.  A value without a label takes the
default namespace, if one is bound. -/
def resolve (e : Element) (value : String) : Except DocumentError QName :=
  let value := Text.trim value
  match Text.cutString ':' value with
  | some (label, name) =>
    match e.scope.lookup label with
    | some uri => .ok ⟨some uri, name⟩
    | none => .error (.unboundLabel label value)
  | none => .ok ⟨e.scope.lookup "", value⟩

def qname? (e : Element) (key : String) : Except DocumentError (Option QName) :=
  match e.attr? key with
  | some value => (e.resolve value).map some
  | none => .ok none

def qname (e : Element) (key : String) : Except DocumentError QName := do
  match ← e.qname? key with
  | some name => return name
  | none => throw (.missingAttribute e.tag key)

def childrenNamed (e : Element) (localName : String) : List Element :=
  e.children.filter (·.localName == localName)

def child? (e : Element) (localName : String) : Option Element :=
  e.children.find? (·.localName == localName)

end Element

end SchemaGraph.Markup
