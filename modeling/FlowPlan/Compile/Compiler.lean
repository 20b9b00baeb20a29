import FlowPlan.Compile.Unfold

/-!
# Compilers

A `Compiler` is a catalog, a chain of interceptors and a bound on the depth. It indexes flows and unfolds graphs into plans. A
compilation is a function of the compiler, the id of the flow and the graph: it gives a plan or the first error, and never a
part of a plan.
-/

namespace FlowPlan

/-- What flows are compiled with. -/
structure Compiler where
  catalog : NodeCatalog := .standard
  chain : Chain := []
  maxDepth : Nat := 256

/-- How a compilation went: its plan or error, and its events in order. -/
structure Compilation where
  outcome : Except CompileError Route
  events : List Event

namespace Compiler

variable (c : Compiler)

/-- Adds an interceptor. -/
def withInterceptor (i : Interceptor) : Compiler :=
  { c with chain := c.chain.push i }

/-- The graph of a flow. -/
def index (f : Flow) : Except CompileError Graph :=
  Graph.build c.catalog f.nodes f.edges

/-- What a graph is unfolded with, on behalf of a flow. -/
def setting (flowId : String) (g : Graph) : Setting g where
  flowId := flowId
  chain := c.chain
  maxDepth := c.maxDepth

/-- The compilation of a graph on behalf of a flow. -/
def compilation (flowId : String) (g : Graph) : Compilation :=
  let (outcome, progress) := (c.setting flowId g).plan.run.run {}
  ⟨outcome, progress.events.reverse⟩

/-- The plan of a graph on behalf of a flow. -/
def compileGraph (flowId : String) (g : Graph) : Except CompileError Route :=
  (c.compilation flowId g).outcome

/-- The plan of a flow. -/
def compile (f : Flow) : Except CompileError Route := do
  let g ← c.index f
  c.compileGraph f.id g

/-- The calls that interceptors get in a compilation. -/
def calls (flowId : String) (run : Compilation) : List String :=
  run.events.flatMap fun
    | .submitted element => c.chain.stepCalls flowId element
    | .finished route => c.chain.routeCalls flowId route
    | _ => []

end Compiler

namespace Compilation

/-- Whether a compilation asked for the pairing of its graph. -/
def asksForPairing (run : Compilation) : Bool :=
  run.events.any Event.isOpening

/-- The notices of events, with those of the pairing in front of the first event that opens a branch structure. -/
def noticesWithPairing (flowId : String) (pairing : List Notice) : List Event → List Notice
  | [] => []
  | event :: rest =>
    if event.isOpening then
      pairing ++ (event :: rest).filterMap (·.notice? flowId)
    else (event.notice? flowId).toList ++ noticesWithPairing flowId pairing rest

/-- What a compilation has to say. The pairing of a graph is told once, when it is first asked for. -/
def notices (run : Compilation) (flowId : String) (g : Graph) (pairingTold : Bool) : List Notice :=
  let pairing := if pairingTold then [] else g.pairingNotices g.pairing
  let result := match run.outcome with
    | .ok route => [.debug s!"Compiled flow '{flowId}': {route.chain}"]
    | .error _ => []
  noticesWithPairing flowId pairing run.events ++ result

end Compilation

end FlowPlan
