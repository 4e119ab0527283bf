import SchemaGraph.Graph.Check
import SchemaGraph.Graph.Headers
import SchemaGraph.Override.Apply
import SchemaGraph.Resolution.Resolver

/-! From a set of declarations and a list of operations to a finished graph. -/
namespace SchemaGraph

inductive CompileError
  | resolve (error : ResolveError)
  | override (error : OverrideError)
  | graph (fault : GraphFault)
deriving DecidableEq

def CompileError.message : CompileError → String
  | .resolve e => e.message
  | .override e => e.message
  | .graph e => e.message

def ResolveContext.graph (c : ResolveContext) : Except ResolveError TypeGraph :=
  ResolveState.graph <$> Stateful.result (c.resolvePlaceholders >>= fun _ => c.resolveAll) .empty

/-- Of several operations with one action the last counts, in the place of the first. -/
def TypeGraph.addOperations (g : TypeGraph) (operations : List Operation) : TypeGraph :=
  { g with operations := operations.foldl (fun m op => m.insert op.action op) g.operations }

/-- Resolution, operations, header types, corrections and the final check, in this order. -/
def compile (set : DeclarationSet) (operations : List Operation) (overrides : OverrideTable)
    (options : ResolveOptions) : Except CompileError TypeGraph := do
  let context : ResolveContext := ⟨set, .ofSet set, overrides, options⟩
  let resolved ← context.graph.mapError .resolve
  let graph ← (Stateful.result TypeGraph.aggregateHeaders
    (resolved.addOperations operations)).mapError .resolve
  let graph ← (Stateful.result (TypeGraph.correct overrides) graph).mapError .override
  graph.check.mapError .graph
  return graph

end SchemaGraph
