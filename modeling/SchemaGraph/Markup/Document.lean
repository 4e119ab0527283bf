import SchemaGraph.Markup.Element
import SchemaGraph.Markup.Event
import SchemaGraph.Markup.Reference

/-! Reading a text as a tree of elements with exactly one root. -/
namespace SchemaGraph.Markup

def splitTag (name : List Char) : Option String × String :=
  match Text.cut ':' name with
  | some (label, rest) => (some (String.ofList label), String.ofList rest)
  | none => (none, String.ofList name)

def declaredLabel? (key : List Char) : Option (List Char) :=
  if key = "xmlns".toList then some []
  else if "xmlns:".toList.isPrefixOf key then some (key.drop 6)
  else none

def resolvedAttributes (name text : List Char) :
    Except DocumentError (List (List Char × String)) :=
  (attributes [] text).mapM fun (key, raw) =>
    match unescape raw with
    | some value => .ok (key, String.ofList value)
    | none =>
      .error (.invalidAttribute (String.ofList name) (String.ofList key) (String.ofList raw))

/-- The childless element of a start tag.  Declarations of namespaces go into its scope, later ones
before earlier ones, and are no attributes. -/
def Element.ofStart (outer : Scope) (name text : List Char) : Except DocumentError Element := do
  let attributes ← resolvedAttributes name text
  let (label, localName) := splitTag name
  let declared := attributes.filterMap fun (key, value) =>
    (declaredLabel? key).map fun label => (String.ofList label, value)
  let plain := attributes.filterMap fun (key, value) =>
    if (declaredLabel? key).isSome then none else some (String.ofList key, value)
  return { label, localName, attributes := plain, scope := declared.reverse ++ outer, children := [] }

/-- A tree in the making: the open elements, innermost first, each with its children so far in
reverse, and the root once it is closed. -/
structure Growth where
  openElements : List Element
  root : Option Element

namespace Growth

def start : Growth := ⟨[], none⟩

def scope (g : Growth) : Scope :=
  match g.openElements with
  | e :: _ => e.scope
  | [] => .initial

def attach (g : Growth) (e : Element) : Except DocumentError Growth :=
  match g.openElements with
  | parent :: outer =>
    .ok { g with openElements := { parent with children := e :: parent.children } :: outer }
  | [] => if g.root.isSome then .error (.invalidStructure .manyRoots) else .ok { g with root := some e }

def step (g : Growth) : Event → Except DocumentError Growth
  | .opening name text => do
    let e ← Element.ofStart g.scope name text
    return { g with openElements := e :: g.openElements }
  | .leaf name text => do
    g.attach (← Element.ofStart g.scope name text)
  | .closing name =>
    match g.openElements with
    | e :: outer =>
      if e.tag = String.ofList name then
        attach { g with openElements := outer } { e with children := e.children.reverse }
      else .error .malformed
    | [] => .error .malformed

def finish (g : Growth) : Except DocumentError Element :=
  match g.openElements, g.root with
  | e :: _, _ => .error (.invalidStructure (.unclosedElement e.tag))
  | [], some root => .ok root
  | [], none => .error (.invalidStructure .noRoot)

end Growth

/-- Reads a document into its root element. -/
def Element.ofText (text : String) : Except DocumentError Element := do
  let tags := Tags.ofText text.toList
  let g ← tags.events.foldlM Growth.step Growth.start
  if tags.complete then g.finish else throw .malformed

end SchemaGraph.Markup
