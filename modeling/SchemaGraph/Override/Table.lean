import SchemaGraph.Graph.Registry

/-! Curated corrections to a resolved graph.  All names are keys of the registry or of element maps. -/
namespace SchemaGraph

inductive KindCorrection
  | boolean
  | decimal
  | string
  | enum
  /-- A list of the literals of the type with the key `item`. -/
  | list (item : String)
deriving DecidableEq

structure ElementNaming where
  typeKey : String
  elements : List String
  name : String
deriving DecidableEq

structure ElementCorrection (α : Type) where
  typeKey : String
  element : String
  value : α

structure OverrideTable where
  version : String := ""
  /-- Shared names of choice groups, by the key of the type and the place of the group among the choice
  groups of the type; no place stands for content that is itself a choice. -/
  choiceGroups : OrderedMap (String × Option Nat) (Option String) := ∅
  typeNames : OrderedMap String String := ∅
  listNames : OrderedMap String String := ∅
  extraProperties : OrderedMap String (List String) := ∅
  textAttributes : OrderedMap String String := ∅
  simpleKinds : OrderedMap String KindCorrection := ∅
  elementNames : List ElementNaming := []
  elementHints : List (ElementCorrection String) := []
  elementDefaults : List (ElementCorrection Json) := []
  /-- From the alias to the operation that it stands for. -/
  operationAliases : OrderedMap String String := ∅

/-- The entry of a choice group, which may be without a name. -/
def OverrideTable.choiceGroup? (t : OverrideTable) (typeKey : String) (index : Option Nat) :
    Option (Option String) :=
  t.choiceGroups.get? (typeKey, index)

end SchemaGraph
