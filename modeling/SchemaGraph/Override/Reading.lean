import SchemaGraph.Override.Apply
import SchemaGraph.Text.Cut
import SchemaGraph.Yaml.Reading

/-! Override tables written in YAML.  Names of types and elements are written with labels, which the table
itself binds to namespaces; names of operations are not. -/
namespace SchemaGraph

open Yaml (Node Fields)

/-- A table as it is written, before its names are expanded. -/
structure WrittenTable where
  version : String
  namespaces : OrderedMap String String
  choiceGroups : List ((String × Option Nat) × Option String)
  typeNames : OrderedMap String String
  listNames : OrderedMap String String
  extraProperties : OrderedMap String (List String)
  textAttributes : OrderedMap String String
  simpleKinds : OrderedMap String KindCorrection
  elementNames : List ElementNaming
  elementHints : List (ElementCorrection String)
  elementDefaults : List (ElementCorrection Json)
  operationAliases : OrderedMap String String

namespace WrittenTable

def choiceGroup? (n : Node) : Option ((String × Option Nat) × Option String) := do
  let f ← n.fields? ["type", "index", "name"]
  let type ← f.required? "type" Node.text?
  let index ← f.optional? "index" Node.natural?
  return ((type, index), ← f.optional? "name" Node.text?)

def plainKind? : String → Option KindCorrection
  | "boolean" => some .boolean
  | "decimal" => some .decimal
  | "string" => some .string
  | "enum" => some .enum
  | _ => none

def isKindKey (n : Node) : Bool := n.untypedText? == some "kind"

/-- A kind is a mapping with the field `kind`, and for lists the field `item`; other fields do not
count.  It can also be a list of these values. -/
def kind? : Node → Option KindCorrection
  | .map tag entries => do
    let (kinds, others) := entries.partition fun e => isKindKey e.1
    let [(_, kind)] := kinds | none
    if Yaml.isLocal tag || !Node.entriesAreReadable others then none
    match ← kind.text? with
    | "list" => return .list (← Yaml.onlyText? "item" others)
    | name => plainKind? name
  | .list tag (kind :: parameters) => do
    if Yaml.isLocal tag then none
    match ← kind.text?, parameters with
    | "list", [item] => return .list (← item.untypedText?)
    | name, [] => plainKind? name
    | _, _ => none
  | .list _ [] | .scalar _ => none

def elementNaming? (n : Node) : Option ElementNaming := do
  let f ← n.fields? ["type", "elements", "name"]
  let typeKey ← f.required? "type" Node.text?
  let elements ← f.required? "elements" (Node.items? Node.text?)
  return { typeKey, elements, name := ← f.required? "name" Node.text? }

def elementCorrection? {α : Type} (name : String) (read : Node → Option α) (n : Node) :
    Option (ElementCorrection α) := do
  let f ← n.fields? ["type", "element", name]
  let typeKey ← f.required? "type" Node.text?
  let element ← f.required? "element" Node.text?
  return { typeKey, element, value := ← f.required? name read }

def names : List String :=
  ["version", "namespaces", "choice_groups", "type_names", "list_names", "extra_properties",
    "text_attributes", "simple_kinds", "element_names", "element_hints", "element_defaults",
    "operation_aliases"]

def ofNode? (n : Node) : Option WrittenTable := do
  let f ← n.fields? names
  let texts := Node.entries? Node.text?
  return {
    version := ← f.required? "version" Node.text?
    namespaces := ← f.getD? "namespaces" ∅ texts
    choiceGroups := ← f.getD? "choice_groups" [] (Node.items? choiceGroup?)
    typeNames := ← f.getD? "type_names" ∅ texts
    listNames := ← f.getD? "list_names" ∅ texts
    extraProperties :=
      ← f.getD? "extra_properties" ∅ (Node.entries? (Node.items? Node.text?))
    textAttributes := ← f.getD? "text_attributes" ∅ texts
    simpleKinds := ← f.getD? "simple_kinds" ∅ (Node.entries? kind?)
    elementNames := ← f.getD? "element_names" [] (Node.items? elementNaming?)
    elementHints :=
      ← f.getD? "element_hints" [] (Node.items? (elementCorrection? "hint" Node.text?))
    elementDefaults :=
      ← f.getD? "element_defaults" [] (Node.items? (elementCorrection? "default" Node.json?))
    operationAliases := ← f.getD? "operation_aliases" ∅ texts }

end WrittenTable

/-! Expanding names. -/

/-- A name with a label gets the namespace of the label; a name with a brace in front or without a colon
stays. -/
def expandLabel (namespaces : OrderedMap String String) (name : String) :
    Except OverrideError String :=
  if name.startsWith "\x7b" then .ok name
  else
    match Text.cutString ':' name with
    | none => .ok name
    | some (label, localName) =>
      match namespaces.get? label with
      | some uri => .ok ("\x7b" ++ uri ++ "\x7d" ++ localName)
      | none => .error (.unknownLabel label name)

namespace WrittenTable

variable (t : WrittenTable)

def expand (name : String) : Except OverrideError String := expandLabel t.namespaces name

def expandKeys {α : Type} (m : OrderedMap String α) :
    Except OverrideError (OrderedMap String α) := do
  return .ofList (← m.entries.mapM fun (key, a) => do return (← t.expand key, a))

def expandKind (entry : String × KindCorrection) :
    Except OverrideError (String × KindCorrection) := do
  let kind ← match entry.2 with
    | .list item => KindCorrection.list <$> t.expand item
    | kind => pure kind
  return (← t.expand entry.1, kind)

def expandNaming (c : ElementNaming) : Except OverrideError ElementNaming := do
  let typeKey ← t.expand c.typeKey
  return { c with typeKey, elements := ← c.elements.mapM t.expand }

def expandCorrection {α : Type} (c : ElementCorrection α) :
    Except OverrideError (ElementCorrection α) := do
  let typeKey ← t.expand c.typeKey
  return { c with typeKey, element := ← t.expand c.element }

/-- The table with its names expanded; choice groups come first and plain maps last.  Of names that
expand to the same key the last one counts, in the place of the first. -/
def table : Except OverrideError OverrideTable := do
  let choiceGroups ← t.choiceGroups.mapM fun ((type, index), name) => do
    return ((← t.expand type, index), name)
  let simpleKinds ← t.simpleKinds.entries.mapM t.expandKind
  let elementNames ← t.elementNames.mapM t.expandNaming
  let elementHints ← t.elementHints.mapM t.expandCorrection
  let elementDefaults ← t.elementDefaults.mapM t.expandCorrection
  let typeNames ← t.expandKeys t.typeNames
  let listNames ← t.expandKeys t.listNames
  let extraProperties ← t.expandKeys t.extraProperties
  let textAttributes ← t.expandKeys t.textAttributes
  return {
    version := t.version
    choiceGroups := .ofList choiceGroups
    typeNames
    listNames
    extraProperties
    textAttributes
    simpleKinds := .ofList simpleKinds
    elementNames
    elementHints
    elementDefaults
    operationAliases := t.operationAliases }

end WrittenTable

def OverrideTable.ofText (text : String) : Except OverrideError OverrideTable :=
  match (Node.ofText? text).bind WrittenTable.ofNode? with
  | some t => t.table
  | none => .error .format

end SchemaGraph
