import SchemaGraph.Graph.Basic
import SchemaGraph.Linking.Link
import SchemaGraph.Override.Table

/-! Applying corrections.  Every correction has to find its target; one that does not ends the
application and leaves in place what came before it. -/
namespace SchemaGraph

inductive OverrideError
  /-- The table is not of the expected form. -/
  | format
  /-- The table cannot be read. -/
  | unreadable
  | unknownLabel (label name : String)
  | unknownType (key : String)
  | unknownElement (typeKey element : String)
  | unknownOperation (name : String)
  | duplicateOperation (name added : String)
  /-- A list that would be its own item type. -/
  | ownItem (key : String)
deriving DecidableEq

def OverrideError.message : OverrideError → String
  | .format => "invalid override table"
  | .unreadable => "failed to read override table"
  | .unknownLabel label name => s!"unknown prefix '{label}' in override name '{name}'"
  | .unknownType key => "override targets unknown type '" ++ key ++ "'"
  | .unknownElement key element =>
    "override targets unknown element '" ++ element ++ "' of type '" ++ key ++ "'"
  | .unknownOperation name => "override targets unknown operation '" ++ name ++ "'"
  | .duplicateOperation name added =>
    "alias '" ++ added ++ "' for '" ++ name ++ "' already names an operation"
  | .ownItem key =>
    "invalid simple kind override for '" ++ key ++ "': a list cannot be its own item type"

abbrev Override := Stateful TypeGraph OverrideError Unit

namespace TypeGraph

def correctedType (key : String) : Stateful TypeGraph OverrideError TypeId := do
  match (← get).types.lookup key with
  | some id => return id
  | none => throw (.unknownType key)

def correctType (key : String) (f : TypeEntry → TypeEntry)
    (keeps : ∀ t, (f t).key = t.key := by intro _; rfl) : Override := do
  let id ← correctedType key
  modify fun g => { g with types := g.types.modify id f keeps }

def correctElement (key element : String) (f : ElementDescriptor → ElementDescriptor) :
    Override := do
  let id ← correctedType key
  if ((← get).types.get id).elements.contains element then
    modify fun g =>
      { g with
        types := g.types.modify id fun t => { t with elements := t.elements.modify element f } }
  else throw (.unknownElement key element)

def correctedKind (key : String) (id : TypeId) :
    KindCorrection → Stateful TypeGraph OverrideError (SimpleKind × Option TypeId)
  | .boolean => pure (.boolean, none)
  | .decimal => pure (.decimal, none)
  | .string => pure (.string, none)
  | .enum => pure (.enum, none)
  | .list item => do
    let itemId ← correctedType item
    if itemId = id then throw (.ownItem key) else return (.listOfEnum, some itemId)

def correctKind (key : String) (kind : KindCorrection) : Override := do
  let id ← correctedType key
  let (simpleKind, listItem) ← correctedKind key id kind
  modify fun g =>
    { g with types := g.types.modify id fun t => { t with simpleKind := some simpleKind, listItem } }

/-- Binds an alias to the operation it stands for; an alias that is bound to the same already stays. -/
def addAlias (added target : String) : Override := do
  match (← get).operations.get? target with
  | none => throw (.unknownOperation target)
  | some op =>
    match (← get).operations.get? added with
    | some existing => if existing ≠ op then throw (.duplicateOperation target added)
    | none => modify fun g => { g with operations := g.operations.insert added op }

end TypeGraph

inductive Correction
  | typeName (key name : String)
  | listName (key name : String)
  | extraProperties (key : String) (extra : List String)
  | textAttribute (key name : String)
  | kind (key : String) (kind : KindCorrection)
  /-- The type of a list of elements, which has to be there even if the list is empty. -/
  | target (key : String)
  | elementName (key element name : String)
  | elementHint (key element hint : String)
  | elementDefault (key element : String) (value : Json)
  | operationAlias (added target : String)

open TypeGraph

def Correction.apply : Correction → Override
  | .typeName key name => correctType key fun t => { t with serializedName := some name }
  | .listName key name => correctType key fun t => { t with listName := some name }
  | .extraProperties key extra => correctType key fun t => { t with extraProperties := extra }
  | .textAttribute key name => correctType key fun t => { t with textAttribute := some name }
  | .kind key k => correctKind key k
  | .target key => discard (correctedType key)
  | .elementName key element name =>
    correctElement key element fun e => { e with serializedName := some name }
  | .elementHint key element hint =>
    correctElement key element fun e => { e with formatHint := some hint }
  | .elementDefault key element value =>
    correctElement key element fun e => { e with defaultValue := some value }
  | .operationAlias added name => addAlias added name

def OverrideTable.corrections (t : OverrideTable) : List Correction :=
  t.typeNames.entries.map (fun (key, name) => Correction.typeName key name) ++
    t.listNames.entries.map (fun (key, name) => Correction.listName key name) ++
    t.extraProperties.entries.map (fun (key, extra) => Correction.extraProperties key extra) ++
    t.textAttributes.entries.map (fun (key, name) => Correction.textAttribute key name) ++
    t.simpleKinds.entries.map (fun (key, kind) => Correction.kind key kind) ++
    t.elementNames.flatMap (fun c =>
      Correction.target c.typeKey ::
        c.elements.map fun element => Correction.elementName c.typeKey element c.name) ++
    t.elementHints.map (fun c => Correction.elementHint c.typeKey c.element c.value) ++
    t.elementDefaults.map (fun c => Correction.elementDefault c.typeKey c.element c.value) ++
    t.operationAliases.entries.map (fun (added, target) => Correction.operationAlias added target)

def TypeGraph.correct (table : OverrideTable) : Override :=
  table.corrections.forM Correction.apply

end SchemaGraph
