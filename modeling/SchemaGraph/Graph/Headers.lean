import SchemaGraph.Graph.Basic
import SchemaGraph.Resolution.Error

/-! The two types that collect the header elements of all operations. -/
namespace SchemaGraph.TypeGraph

def requestHeadersName : QName := ⟨none, "JsonRequestHeaders"⟩

def responseHeadersName : QName := ⟨none, "JsonResponseHeaders"⟩

/-- Header elements by direction, and the headers left out with the first operation that names them. -/
structure HeaderUnion where
  request : ElementMap
  response : ElementMap
  skipped : OrderedMap String String

/-- Adds a global element to the headers of one direction, once. -/
def addHeader (g : TypeGraph) (action : String) (target : ElementMap) (key : String) :
    Except ResolveError ElementMap :=
  if target.contains key then .ok target
  else
    match g.elements.get? key with
    | some descriptor => .ok (target.insert key descriptor)
    | none => .error (.unknownHeader action key)

def addHeaders (g : TypeGraph) (action : String) (headers : List QName)
    (acc : ElementMap × OrderedMap String String) :
    Except ResolveError (ElementMap × OrderedMap String String) :=
  headers.foldlM (fun (target, skipped) header =>
    let key := header.clark
    if g.skippedHeaders.contains key then
      .ok (target, if skipped.contains key then skipped else skipped.insert key action)
    else do return (← g.addHeader action target key, skipped)) acc

def headerUnion (g : TypeGraph) : Except ResolveError HeaderUnion :=
  g.operations.values.foldlM (fun u op => do
    let (request, skipped) ← g.addHeaders op.action op.inputHeaders (u.request, u.skipped)
    let (response, skipped) ← g.addHeaders op.action op.outputHeaders (u.response, skipped)
    return ⟨request, response, skipped⟩) ⟨∅, ∅, ∅⟩

def skippedHeader (entry : String × String) : Diagnostic :=
  ⟨.skippedHeaderElement, entry.1,
    "untyped header of operation " ++ entry.2 ++ " left out of the header types"⟩

def reserveHeaders (name : QName) (elements : ElementMap) :
    Stateful TypeGraph ResolveError TypeId := do
  match (← get).types.reserve? { name, elements } with
  | some (id, types) =>
    modify fun g => { g with types }
    return id
  | none => throw (.duplicateType name.clark)

def aggregateHeaders : Stateful TypeGraph ResolveError Unit := do
  let union ← ofExcept (← get).headerUnion
  modify fun g =>
    { g with diagnostics := g.diagnostics ++ union.skipped.entries.map skippedHeader }
  let request ← reserveHeaders requestHeadersName union.request
  modify fun g => { g with requestHeaders := some request }
  let response ← reserveHeaders responseHeadersName union.response
  modify fun g => { g with responseHeaders := some response }

end SchemaGraph.TypeGraph
