import FlowPlan.Graph.Adjacency
import FlowPlan.Graph.Node
import FlowPlan.Notice
import Std.Data.TreeMap
import Std.Data.TreeSet

/-!
# Graphs

A `Graph` is a flow with its ids resolved. Its nodes have positions, in the order of their registration: the nodes of the flow
as declared, each conditional one followed by its branches. Its links are the edges of the flow and one link from each
conditional node to each of its branches. `Graph.build` makes the graph of a flow or says what is wrong with it. Flows may
hold loops.
-/

namespace FlowPlan

/-- A flow with its ids resolved to positions. -/
structure Graph where
  size : Nat
  nodes : Vector Graph.Node size
  positions : Std.TreeMap String (Fin size)
  adjacency : Graph.Adjacency size

namespace Graph

/-! ## Registration -/

/-- Takes the ids of nodes in order; an id that is taken is refused. -/
def takeIds (taken : Std.TreeSet String) : List Node → Except Malformation (Std.TreeSet String)
  | [] => .ok taken
  | node :: rest =>
    if taken.contains node.id then .error (.duplicateId node.id) else takeIds (taken.insert node.id) rest

/-- The nodes of the graph in order, when the given ids are taken. -/
def registerNodes (catalog : NodeCatalog) (taken : Std.TreeSet String) : List Flow.Node → Except Malformation (List Node)
  | [] => .ok []
  | node :: rest => do
    let group ← Node.ofFlowNode catalog node
    let taken ← takeIds taken group
    let others ← registerNodes catalog taken rest
    return group ++ others

/-- Where each id is registered. -/
def positionsOf {n : Nat} (nodes : Vector Node n) : Std.TreeMap String (Fin n) :=
  (List.finRange n).foldl (fun m v => m.insert (nodes.get v).id v) ∅

/-! ## Links -/

/-- The links from conditional nodes to their branches. -/
def branchLinks {n : Nat} (nodes : Vector Node n) (positions : Std.TreeMap String (Fin n)) : List (Fin n × Fin n) :=
  (List.finRange n).flatMap fun v => (nodes.get v).branchIds.filterMap fun b => positions[b]?.map (v, ·)

/-- Where an edge from `source` starts: a conditional node is left through one of its branches. Nothing when the edge only
says again that a branch belongs to its node. -/
def edgeStart? {n : Nat} (nodes : Vector Node n) (positions : Std.TreeMap String (Fin n)) (edge : Flow.Edge)
    (source : Fin n) : Except Malformation (Option (Fin n)) :=
  match (nodes.get source).kind, edge.branch with
  | .conditional branches, some branch =>
    if branches.contains branch then .ok (some (positions[branch]?.getD source))
    else .error (.unknownBranch edge.source branch)
  | .conditional branches, none =>
    if branches.contains edge.target then .ok none else .error (.bypassesBranches edge.source edge.target)
  | _, _ => .ok (some source)

/-- The link of an edge, if it adds one. Only a conditional node leads to its branches. -/
def edgeLink? {n : Nat} (nodes : Vector Node n) (positions : Std.TreeMap String (Fin n)) (edge : Flow.Edge) :
    Except Malformation (Option (Fin n × Fin n)) := do
  let some source := positions[edge.source]? | throw (.unknownSource edge.source)
  let some target := positions[edge.target]? | throw (.unknownTarget edge.target)
  let some start ← edgeStart? nodes positions edge source | return none
  match (nodes.get target).kind with
  | .branch parent _ =>
    if (nodes.get start).id = parent then return some (start, target)
    else throw (.entersBranch (nodes.get start).id edge.target parent)
  | _ => return some (start, target)

/-- The links of the edges, in order. -/
def edgeLinks {n : Nat} (nodes : Vector Node n) (positions : Std.TreeMap String (Fin n)) :
    List Flow.Edge → Except Malformation (List (Fin n × Fin n))
  | [] => .ok []
  | edge :: rest => do
    let link ← edgeLink? nodes positions edge
    let links ← edgeLinks nodes positions rest
    return link.toList ++ links

/-- The graph of nodes and edges. -/
def ofParts (catalog : NodeCatalog) (nodes : List Flow.Node) (edges : List Flow.Edge) : Except Malformation Graph := do
  if nodes.isEmpty then throw .noNodes
  if edges.isEmpty then throw .noEdges
  let registered ← registerNodes catalog ∅ nodes
  let nodes : Vector Node registered.length := ⟨registered.toArray, by simp⟩
  let positions := positionsOf nodes
  let links ← edgeLinks nodes positions edges
  return {
    size := registered.length
    nodes := nodes
    positions := positions
    adjacency := .ofLinks (branchLinks nodes positions ++ links) }

/-- The graph of a flow's nodes and edges. -/
def build (catalog : NodeCatalog) (nodes : List Flow.Node) (edges : List Flow.Edge) : Except CompileError Graph :=
  (ofParts catalog nodes edges).mapError .graphMalformed

/-! ## Positions -/

variable (g : Graph)

/-- The node at a position. -/
def node (v : Fin g.size) : Node :=
  g.nodes.get v

/-- The id of the node at a position. -/
def idAt (v : Fin g.size) : String :=
  (g.node v).id

/-- The position of an id. -/
def find? (id : String) : Option (Fin g.size) :=
  g.positions[id]?

/-- All positions in the order of registration. -/
def vertices : List (Fin g.size) :=
  List.finRange g.size

/-- The successors of a position, in the order in which they were linked. -/
def successorsAt (v : Fin g.size) : List (Fin g.size) :=
  g.adjacency.successors.get v

/-- The predecessors of a position, in the order in which they were linked. -/
def predecessorsAt (v : Fin g.size) : List (Fin g.size) :=
  g.adjacency.predecessors.get v

/-- The positions that nothing leads to. -/
def entryCandidates : List (Fin g.size) :=
  g.vertices.filter fun v => (g.predecessorsAt v).isEmpty

/-- The only position that nothing leads to. -/
def entry : Except CompileError (Fin g.size) :=
  match g.entryCandidates with
  | [v] => .ok v
  | candidates => .error (.noEntryNode (candidates.map g.idAt))

/-! ## Questions by id -/

/-- The node with an id. -/
def node? (id : String) : Option Node :=
  (g.find? id).map g.node

/-- The ids of the successors of an id; none for an unknown id. -/
def successors (id : String) : List String :=
  ((g.find? id).elim [] g.successorsAt).map g.idAt

/-- The ids of the predecessors of an id; none for an unknown id. -/
def predecessors (id : String) : List String :=
  ((g.find? id).elim [] g.predecessorsAt).map g.idAt

def inDegree (id : String) : Nat :=
  (g.predecessors id).length

def outDegree (id : String) : Nat :=
  (g.successors id).length

def isBranchStart (id : String) : Bool :=
  1 < g.outDegree id

def isBranchEnd (id : String) : Bool :=
  1 < g.inDegree id

/-- Whether one link or more lead from one id to the other. -/
def isReachable (source target : String) : Bool :=
  match g.find? source, g.find? target with
  | some v, some w => g.adjacency.reaches v w
  | _, _ => false

/-- What indexing a flow of so many declared nodes has to say. -/
def indexNotice (declared : Nat) : Notice :=
  .debug s!"Indexed flow graph with {g.size} nodes ({declared} declared) and {g.adjacency.linkCount} edges"

end Graph

end FlowPlan
