import SchemaGraph.Graph.Basic

/-! Whether a finished graph hangs together. -/
namespace SchemaGraph

inductive GraphFault
  | listWithoutItem (key : String)
  | itemNotEnum (item list : String)
  | unknownElement (operation : String) (element : QName)
deriving DecidableEq

def GraphFault.message : GraphFault → String
  | .listWithoutItem key => "graph validation error: list type '" ++ key ++ "' has no item type"
  | .itemNotEnum item list =>
    "graph validation error: item type '" ++ item ++ "' of list type '" ++ list ++ "' is not an enum"
  | .unknownElement operation element =>
    "graph validation error: operation '" ++ operation ++ "' references unknown element '" ++
      element.clark ++ "'"

namespace TypeGraph

/-- A list of literals needs an enumeration as its item type. -/
def checkList (g : TypeGraph) (t : TypeEntry) : Except GraphFault Unit :=
  if t.simpleKind = some .listOfEnum then
    match t.listItem with
    | none => .error (.listWithoutItem t.key)
    | some item =>
      if (g.types.get item).simpleKind = some .enum then .ok ()
      else .error (.itemNotEnum (g.types.keyOf item) t.key)
  else .ok ()

/-- Bodies have to be global elements, headers global elements or elements that were left out. -/
def checkOperation (g : TypeGraph) (name : String) (op : Operation) : Except GraphFault Unit :=
  let headers := (op.inputHeaders ++ op.outputHeaders).filter
    fun header => !g.skippedHeaders.contains header.clark
  (op.input :: op.output :: headers).forM fun element =>
    if g.elements.contains element.clark then .ok () else .error (.unknownElement name element)

/-- Checks the operations one after the other; of several with one action the first is checked. -/
def checkOperations (g : TypeGraph) (seen : List String) :
    List (String × Operation) → Except GraphFault Unit
  | [] => .ok ()
  | (name, op) :: rest =>
    if seen.contains op.action then g.checkOperations seen rest
    else do
      g.checkOperation name op
      g.checkOperations (op.action :: seen) rest

def check (g : TypeGraph) : Except GraphFault Unit := do
  g.types.entries.forM g.checkList
  g.checkOperations [] g.operations.entries

end TypeGraph

end SchemaGraph
