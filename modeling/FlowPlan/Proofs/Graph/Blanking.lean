import FlowPlan.Graph.Pairing
import FlowPlan.Graph.Run
import FlowPlan.Proofs.Graph.Indexing
import FlowPlan.Proofs.Graph.Renumbering

/-!
# Flows without parameters and conditions

A flow that is blanked has no parameters, and every condition is the empty text; a branch without a condition stays one. Nothing
that a graph is made by gets lost with that: blanking before the indexing of a flow and after it is the same (`Graph.build_blank`).
Two graphs that are the same when they are blanked have one shape and one entry (`Graph.sameShape_of_blank`).
-/

namespace FlowPlan

/-! ## Blanking -/

namespace Flow

/-- A branch with its condition emptied, if it has one. -/
def Branch.blank (b : Branch) : Branch :=
  { b with condition := b.condition.map fun _ => "" }

/-- A node without parameters and with emptied conditions. -/
def Node.blank (n : Node) : Node :=
  { n with parameters := ∅, branches := n.branches.map Branch.blank }

end Flow

/-- A flow without parameters and with emptied conditions. -/
def Flow.blank (f : Flow) : Flow :=
  { f with nodes := f.nodes.map Flow.Node.blank }

namespace Graph

/-- A kind with its condition emptied, if it has one. -/
def Kind.blank : Kind → Kind
  | .branch parent condition => .branch parent (condition.map fun _ => "")
  | kind => kind

/-- A node without parameters and with its condition emptied. -/
def Node.blank (n : Node) : Node :=
  { n with parameters := ∅, kind := n.kind.blank }

/-- A graph without parameters and with emptied conditions. -/
def blank (g : Graph) : Graph :=
  { g with nodes := g.nodes.map Node.blank }

/-! ## Registration -/

namespace Node

theorem branchIds_blank (n : Node) : n.blank.branchIds = n.branchIds := by
  obtain ⟨id, component, parameters, kind⟩ := n
  cases kind <;> rfl

/-- The catalog makes the same of a blanked node, or refuses it for the same reason. -/
theorem kindOf_blank (catalog : NodeCatalog) (n : Flow.Node) : kindOf catalog n.blank = kindOf catalog n := by
  have hcount : (n.blank.branches.filter (·.condition.isNone)).length = (n.branches.filter (·.condition.isNone)).length := by
    rw [Flow.Node.blank, List.filter_map, List.length_map]
    exact congrArg (fun p => (n.branches.filter p).length) (funext fun b => Option.isNone_map)
  have hids : n.blank.branches.map (·.id) = n.branches.map (·.id) := by
    rw [Flow.Node.blank, List.map_map]
    rfl
  have hempty : n.blank.branches.isEmpty = n.branches.isEmpty := List.isEmpty_map
  unfold kindOf
  rw [hcount, hids, hempty]
  rfl

/-- No parameters are left of a blanked node. -/
theorem ofParameters_blank (n : Flow.Node) : Value.ofParameters n.blank.parameters = ∅ :=
  Dict.map_empty Value.ofJson

/-- Blanking a node before or after the graph is made. -/
theorem ofFlowNode_blank (catalog : NodeCatalog) (n : Flow.Node) :
    ofFlowNode catalog n.blank = (ofFlowNode catalog n).map (List.map Node.blank) := by
  unfold ofFlowNode
  rw [kindOf_blank, ofParameters_blank]
  cases hk : kindOf catalog n with
  | error e => rfl
  | ok kind =>
    rcases kindOf_ok hk with ⟨rfl, -⟩ | rfl | rfl
    · have hbranches : n.blank.branches.map (ofBranch n.blank) = (n.branches.map (ofBranch n)).map Node.blank := by
        rw [Flow.Node.blank, List.map_map, List.map_map]
        rfl
      exact congrArg (fun rest => Except.ok (_ :: rest)) hbranches
    · rfl
    · rfl

end Node

/-- Ids are taken alike. -/
theorem takeIds_blank (taken : Std.TreeSet String) (nodes : List Node) :
    takeIds taken (nodes.map Node.blank) = takeIds taken nodes := by
  induction nodes generalizing taken with
  | nil => rfl
  | cons node rest ih =>
    rw [List.map_cons, takeIds, takeIds, ih]
    rfl

/-- Nodes are registered alike, up to parameters and conditions. -/
theorem registerNodes_blank (catalog : NodeCatalog) (taken : Std.TreeSet String) (nodes : List Flow.Node) :
    registerNodes catalog taken (nodes.map Flow.Node.blank) = (registerNodes catalog taken nodes).map (List.map Node.blank) := by
  induction nodes generalizing taken with
  | nil => rfl
  | cons node rest ih =>
    simp only [List.map_cons, registerNodes, Node.ofFlowNode_blank]
    cases Node.ofFlowNode catalog node with
    | error e => rfl
    | ok group =>
      simp only [Except.map, bind, Except.bind, takeIds_blank]
      cases takeIds taken group with
      | error e => rfl
      | ok taken' =>
        simp only [ih]
        cases registerNodes catalog taken' rest with
        | error e => rfl
        | ok others => exact congrArg Except.ok List.map_append.symm

/-! ## Links -/

section Links

variable {n : Nat} (nodes : Vector Node n)

@[simp] theorem get_map_blank (v : Fin n) : (nodes.map Node.blank).get v = (nodes.get v).blank := by
  change (nodes.map Node.blank)[v.val] = (nodes[v.val]).blank
  rw [Vector.getElem_map]

/-- Positions are told by ids, which stay. -/
theorem positionsOf_blank : positionsOf (nodes.map Node.blank) = positionsOf nodes := by
  simp only [positionsOf, get_map_blank]
  rfl

/-- Branches belong to the same nodes. -/
theorem branchLinks_blank (positions : Std.TreeMap String (Fin n)) :
    branchLinks (nodes.map Node.blank) positions = branchLinks nodes positions := by
  simp only [branchLinks, get_map_blank, Node.branchIds_blank]

/-- An edge starts at the same node. -/
theorem edgeStart?_blank (positions : Std.TreeMap String (Fin n)) (edge : Flow.Edge) (source : Fin n) :
    edgeStart? (nodes.map Node.blank) positions edge source = edgeStart? nodes positions edge source := by
  unfold edgeStart?
  rw [get_map_blank, Node.blank]
  cases (nodes.get source).kind <;> rfl

/-- An edge adds the same link, or is refused for the same reason. -/
theorem edgeLink?_blank (positions : Std.TreeMap String (Fin n)) (edge : Flow.Edge) :
    edgeLink? (nodes.map Node.blank) positions edge = edgeLink? nodes positions edge := by
  unfold edgeLink?
  cases positions[edge.source]? with
  | none => rfl
  | some source =>
    cases positions[edge.target]? with
    | none => rfl
    | some target =>
      simp only [edgeStart?_blank]
      cases edgeStart? nodes positions edge source with
      | error e => rfl
      | ok start =>
        cases start with
        | none => rfl
        | some start =>
          simp only [bind, Except.bind, get_map_blank, Node.blank]
          cases (nodes.get target).kind <;> rfl

theorem edgeLinks_blank (positions : Std.TreeMap String (Fin n)) (edges : List Flow.Edge) :
    edgeLinks (nodes.map Node.blank) positions edges = edgeLinks nodes positions edges := by
  induction edges with
  | nil => rfl
  | cons edge rest ih => simp only [edgeLinks, edgeLink?_blank, ih]

end Links

/-! ## Graphs -/

/-- The graph of nodes by their positions. -/
def ofListed {n : Nat} (nodes : Vector Node n) (edges : List Flow.Edge) : Except Malformation Graph := do
  let links ← edgeLinks nodes (positionsOf nodes) edges
  return ⟨n, nodes, positionsOf nodes, .ofLinks (branchLinks nodes (positionsOf nodes) ++ links)⟩

/-- The graph of blanked nodes is the blanked graph. -/
theorem ofListed_blank {n : Nat} (nodes : Vector Node n) (edges : List Flow.Edge) :
    ofListed (nodes.map Node.blank) edges = (ofListed nodes edges).map Graph.blank := by
  unfold ofListed
  rw [positionsOf_blank, edgeLinks_blank, branchLinks_blank]
  cases edgeLinks nodes (positionsOf nodes) edges <;> rfl

/-- Only the list of the nodes counts. -/
theorem ofListed_congr {n m : Nat} {nodes : Vector Node n} {nodes' : Vector Node m} (h : nodes.toList = nodes'.toList)
    (edges : List Flow.Edge) : ofListed nodes edges = ofListed nodes' edges := by
  obtain rfl : n = m := by
    rw [← nodes.length_toList, h, nodes'.length_toList]
  rw [Vector.toList_inj.1 h]

/-- Blanking before the indexing or after it. -/
theorem build_blank (catalog : NodeCatalog) (nodes : List Flow.Node) (edges : List Flow.Edge) :
    Graph.build catalog (nodes.map Flow.Node.blank) edges = (Graph.build catalog nodes edges).map Graph.blank := by
  have hparts : ofParts catalog (nodes.map Flow.Node.blank) edges = (ofParts catalog nodes edges).map Graph.blank := by
    unfold ofParts
    rw [List.isEmpty_map]
    cases nodes.isEmpty with
    | true => rfl
    | false =>
      cases edges.isEmpty with
      | true => rfl
      | false =>
        rw [registerNodes_blank]
        cases registerNodes catalog ∅ nodes with
        | error e => rfl
        | ok registered =>
          change ofListed (IndexingAux.listed (registered.map Node.blank)) edges =
            (ofListed (IndexingAux.listed registered) edges).map Graph.blank
          rw [← ofListed_blank]
          refine ofListed_congr ?_ edges
          rw [Vector.toList_map, IndexingAux.toList_listed, IndexingAux.toList_listed]
  rw [Graph.build, Graph.build, hparts]
  cases ofParts catalog nodes edges <;> rfl

/-! ## Graphs that are the same when they are blanked -/

/-- Kinds that are the same when blanked differ in the text of a condition at most. -/
theorem Kind.resembles_of_blank {kind' kind : Kind} (h : kind'.blank = kind.blank) : kind'.Resembles kind := by
  cases kind with
  | plain => cases kind' <;> cases h; exact .plain
  | conditional branches => cases kind' <;> cases h; exact .conditional
  | unrecognized => cases kind' <;> cases h; exact .unrecognized
  | branch parent condition =>
    cases kind' with
    | branch parent' condition' =>
      obtain ⟨rfl, hc⟩ := Kind.branch.inj h
      have hnone := congrArg Option.isNone hc
      rw [Option.isNone_map, Option.isNone_map] at hnone
      exact .branch hnone
    | _ => cases h

/-- Nodes that are the same when blanked differ in their parameters and in the text of a condition at most. -/
theorem Node.resembles_of_blank {n' n : Node} (h : n'.blank = n.blank) : n'.Resembles n := by
  obtain ⟨hid, hcomponent, -, hkind⟩ := Node.mk.inj h
  exact ⟨hid, hcomponent, Kind.resembles_of_blank hkind⟩

/-- Graphs that are the same when they are blanked have one shape. -/
theorem sameShape_of_blank {g g' : Graph} (h : g'.blank = g.blank) :
    ∃ r : Fin g.size ≃ Fin g'.size, SameShape g g' r ∧ g'.entry = g.entry.map r := by
  obtain ⟨size, nodes, positions, adjacency⟩ := g
  obtain ⟨size', nodes', positions', adjacency'⟩ := g'
  obtain ⟨hsize, hnodes, hpositions, hadjacency⟩ := Graph.mk.inj h
  obtain rfl : size' = size := hsize
  obtain rfl : positions' = positions := eq_of_heq hpositions
  obtain rfl : adjacency' = adjacency := eq_of_heq hadjacency
  have hnode : ∀ v : Fin size', (nodes'.get v).Resembles (nodes.get v) := by
    intro v
    refine Node.resembles_of_blank ?_
    rw [← get_map_blank, ← get_map_blank, eq_of_heq hnodes]
  refine ⟨Equiv.refl _, ⟨hnode, fun v => (List.map_id _).symm, fun v => Option.map_id.symm ▸ rfl, fun e => rfl⟩, ?_⟩
  have hids : idAt ⟨size', nodes', positions', adjacency'⟩ = idAt ⟨size', nodes, positions', adjacency'⟩ :=
    funext fun v => (hnode v).id
  have hcandidates : entryCandidates ⟨size', nodes', positions', adjacency'⟩ =
      entryCandidates ⟨size', nodes, positions', adjacency'⟩ := rfl
  rw [entry, entry, hids, hcandidates]
  rcases entryCandidates ⟨size', nodes, positions', adjacency'⟩ with _ | ⟨v, _ | ⟨w, rest⟩⟩ <;> rfl

end Graph

end FlowPlan
