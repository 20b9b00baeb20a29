import FlowPlan.Graph.Pairing

/-!
# Questions about graphs

What can be asked about a graph by ids, and the answers.
-/

namespace FlowPlan.Graph

/-- A question about a graph. -/
inductive Question
  | overview
  | nodes
  | size
  | entry
  | node (id : String)
  | successors (id : String)
  | predecessors (id : String)
  | inDegree (id : String)
  | outDegree (id : String)
  | isBranchStart (id : String)
  | isBranchEnd (id : String)
  | branchEnd (id : String)
  | branchStartsOf (id : String)
  | reachable (source target : String)
  deriving Repr

/-- A node with all that surrounds it. -/
structure NodeOverview where
  node : Node
  successors : List String
  predecessors : List String
  branchEnd : Option String
  branchStarts : List String

/-- A graph with all that can be asked about it. -/
structure Overview where
  entry : Except CompileError String
  nodes : List NodeOverview
  /-- for each node, whether it leads to each other one -/
  reach : List (List Bool)

/-- The answer to a question. -/
inductive Finding
  | overview (o : Overview)
  | ids (ids : List String)
  | size (nodes : Nat)
  | entry (e : Except CompileError String)
  | node (n : Option Node)
  | number (n : Nat)
  | truth (b : Bool)
  | id (id : Option String)

variable (g : Graph)

def overview : Overview :=
  let pairing := g.pairing
  { entry := g.entry.map g.idAt
    nodes := g.vertices.map fun v =>
      { node := g.node v
        successors := (g.successorsAt v).map g.idAt
        predecessors := (g.predecessorsAt v).map g.idAt
        branchEnd := (pairing.mergeOf.get v).map g.idAt
        branchStarts := (pairing.startsOf.get v).map g.idAt }
    reach := g.vertices.map fun v => (g.adjacency.reachSet v).toList }

def answer : Question → Finding
  | .overview => .overview g.overview
  | .nodes => .ids (g.vertices.map g.idAt)
  | .size => .size g.size
  | .entry => .entry (g.entry.map g.idAt)
  | .node id => .node (g.node? id)
  | .successors id => .ids (g.successors id)
  | .predecessors id => .ids (g.predecessors id)
  | .inDegree id => .number (g.inDegree id)
  | .outDegree id => .number (g.outDegree id)
  | .isBranchStart id => .truth (g.isBranchStart id)
  | .isBranchEnd id => .truth (g.isBranchEnd id)
  | .branchEnd id => .id (g.branchEnd? id)
  | .branchStartsOf id => .ids (g.branchStartsOf id)
  | .reachable source target => .truth (g.isReachable source target)

/-- Whether the answer needs the pairing of the graph. An unknown id is paired with nothing anyway. -/
def needsPairing : Question → Bool
  | .overview => true
  | .branchEnd id => (g.find? id).isSome
  | .branchStartsOf id => (g.find? id).isSome
  | _ => false

end FlowPlan.Graph
