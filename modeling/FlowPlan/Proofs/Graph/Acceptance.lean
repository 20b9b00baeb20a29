import FlowPlan.Proofs.Graph.Reordering

/-!
# Flows that make a graph

`Flow.WellFormed` says of nodes and edges, without a graph, that each node suits its component, that ids are distinct, and that
each edge fits the nodes. Registration comes down to the first two (`registerNodes_eq_ok_iff`), and an edge is accepted exactly
when it fits (`Indexes.fits_iff`). So the well formed flows are the ones that make a graph, and all others are refused as
malformed (`build_ok_iff_wellFormed`).
-/

namespace FlowPlan

namespace Flow

variable (catalog : NodeCatalog)

/-- The branches by which a node is left: those of a node that the catalog takes for conditional. -/
def Node.ownBranches (n : Flow.Node) : List Branch :=
  if catalog.shapeOf? n.component = some .conditional then n.branches else []

/-- The branches of a node are ones that its component may have. Those of an unknown component are not looked at. -/
structure Node.Suits (n : Flow.Node) : Prop where
  plain : catalog.shapeOf? n.component = some .plain → n.branches = []
  conditional : catalog.shapeOf? n.component = some .conditional → (n.branches.filter (·.condition.isNone)).length ≤ 1

/-- The ids that nodes take: those of the nodes and of their branches. -/
def takenIds (nodes : List Flow.Node) : List String :=
  nodes.flatMap fun n => n.id :: (n.ownBranches catalog).map (·.id)

/-- An id is the one of a branch. -/
def IsBranchId (nodes : List Flow.Node) (id : String) : Prop :=
  ∃ n ∈ nodes, ∃ b ∈ n.ownBranches catalog, b.id = id

/-- An edge leads from one node or branch to another, leaves a conditional node by one of its branches, and enters no branch. An
edge from a conditional node to one of its branches is no more than a repetition of what the node declares. -/
structure Edge.Fits (nodes : List Flow.Node) (e : Flow.Edge) : Prop where
  source : e.source ∈ takenIds catalog nodes
  target : e.target ∈ takenIds catalog nodes
  ofConditional : ∀ n ∈ nodes, catalog.shapeOf? n.component = some .conditional → n.id = e.source →
    ((∃ b ∈ n.branches, e.branch = some b.id) ∧ ¬ IsBranchId catalog nodes e.target) ∨
      (e.branch = none ∧ ∃ b ∈ n.branches, b.id = e.target)
  ofOther : (∀ n ∈ nodes, catalog.shapeOf? n.component = some .conditional → n.id ≠ e.source) →
    ¬ IsBranchId catalog nodes e.target

/-- Nodes and edges that fit together. -/
structure WellFormed (nodes : List Flow.Node) (edges : List Flow.Edge) : Prop where
  nodes_ne : nodes ≠ []
  edges_ne : edges ≠ []
  suits : ∀ n ∈ nodes, n.Suits catalog
  distinct : (takenIds catalog nodes).Nodup
  fits : ∀ e ∈ edges, e.Fits catalog nodes

variable {catalog}

/-- A conditional node is left by all branches that it declares. -/
theorem Node.ownBranches_of_conditional {n : Flow.Node} (h : catalog.shapeOf? n.component = some .conditional) :
    n.ownBranches catalog = n.branches :=
  if_pos h

/-- A node that is left by a branch is conditional, and declares the branch. -/
theorem Node.conditional_of_mem {n : Flow.Node} {b : Branch} (h : b ∈ n.ownBranches catalog) :
    catalog.shapeOf? n.component = some .conditional ∧ b ∈ n.branches := by
  unfold ownBranches at h
  split at h
  · exact ⟨‹_›, h⟩
  · cases h

end Flow

namespace Graph

variable {catalog : NodeCatalog} {nodes : List Flow.Node} {edges : List Flow.Edge} {g : Graph}

/-! ## Registration -/

namespace Node

/-- What a node of a flow is in a graph. -/
def kindIn (catalog : NodeCatalog) (n : Flow.Node) : Kind :=
  match catalog.shapeOf? n.component with
  | some .conditional => .conditional (n.branches.map (·.id))
  | some .plain => .plain
  | none => .unrecognized

/-- The nodes of a graph that a node of a flow stands for: itself, and behind it its branches in order. -/
def groupOf (catalog : NodeCatalog) (n : Flow.Node) : List Node :=
  declared n (kindIn catalog n) :: (n.ownBranches catalog).map (ofBranch n)

/-- A node takes its id and those of its own branches, in order. -/
theorem map_id_groupOf (n : Flow.Node) :
    (groupOf catalog n).map (·.id) = n.id :: (n.ownBranches catalog).map (·.id) := by
  rw [groupOf, List.map_cons, List.map_map]
  rfl

/-- A kind is found just for the nodes that suit the catalog. -/
theorem kindOf_eq_ok_iff {n : Flow.Node} {kind : Kind} :
    kindOf catalog n = .ok kind ↔ n.Suits catalog ∧ kind = kindIn catalog n := by
  unfold kindOf kindIn
  cases hs : catalog.shapeOf? n.component with
  | none =>
    have suits : n.Suits catalog := ⟨by simp [hs], by simp [hs]⟩
    simp [suits, eq_comm]
  | some shape =>
    cases shape with
    | plain =>
      have suits : n.Suits catalog ↔ n.branches = [] := ⟨fun h => h.plain hs, fun h => ⟨fun _ => h, by simp [hs]⟩⟩
      rw [suits]
      by_cases hb : n.branches = []
      · simp only [hb, List.isEmpty_nil, if_true, true_and, Except.ok.injEq]
        exact eq_comm
      · simp only [List.isEmpty_eq_false_iff.2 hb, Bool.false_eq_true, if_false, hb, false_and, reduceCtorEq]
    | conditional =>
      have suits : n.Suits catalog ↔ (n.branches.filter (·.condition.isNone)).length ≤ 1 :=
        ⟨fun h => h.conditional hs, fun h => ⟨by simp [hs], fun _ => h⟩⟩
      rw [suits]
      by_cases hone : (n.branches.filter (·.condition.isNone)).length ≤ 1
      · simp only [if_neg (Nat.not_lt.2 hone), hone, true_and, Except.ok.injEq]
        exact eq_comm
      · simp only [if_pos (Nat.not_le.1 hone), hone, false_and, reduceCtorEq]

/-- A node is registered with its branches just when it suits the catalog. -/
theorem ofFlowNode_eq_ok_iff {n : Flow.Node} {group : List Node} :
    ofFlowNode catalog n = .ok group ↔ n.Suits catalog ∧ group = groupOf catalog n := by
  have branches : (if (declared n (kindIn catalog n)).isConditional then n.branches.map (ofBranch n) else []) =
      (n.ownBranches catalog).map (ofBranch n) := by
    unfold Flow.Node.ownBranches kindIn
    cases hs : catalog.shapeOf? n.component with
    | none => rfl
    | some shape => cases shape <;> rfl
  constructor
  · intro h
    obtain ⟨kind, hkind, rfl⟩ := ofFlowNode_ok h
    obtain ⟨hsuits, rfl⟩ := kindOf_eq_ok_iff.1 hkind
    exact ⟨hsuits, by rw [branches, groupOf]⟩
  · rintro ⟨hsuits, rfl⟩
    rw [groupOf, ← branches]
    simp only [ofFlowNode, kindOf_eq_ok_iff.2 ⟨hsuits, rfl⟩]
    rfl

end Node

/-- The ids of registered nodes are those that the nodes of the flow take. -/
theorem map_id_flatMap_groupOf (catalog : NodeCatalog) (nodes : List Flow.Node) :
    (nodes.flatMap (Node.groupOf catalog)).map (·.id) = Flow.takenIds catalog nodes := by
  rw [List.map_flatMap, Flow.takenIds]
  exact congrArg (nodes.flatMap ·) (funext Node.map_id_groupOf)

/-- The groups of nodes are the accepted ones. -/
theorem forall₂_ofFlowNode_iff {groups : List (List Node)} :
    List.Forall₂ (fun n group => Node.ofFlowNode catalog n = .ok group) nodes groups ↔
      (∀ n ∈ nodes, n.Suits catalog) ∧ groups = nodes.map (Node.groupOf catalog) := by
  simp only [Node.ofFlowNode_eq_ok_iff]
  induction nodes generalizing groups with
  | nil => simp
  | cons n rest ih =>
    rw [List.forall₂_cons_left_iff]
    constructor
    · rintro ⟨group, others, ⟨hsuits, rfl⟩, hothers, rfl⟩
      obtain ⟨hall, rfl⟩ := ih.1 hothers
      exact ⟨List.forall_mem_cons.2 ⟨hsuits, hall⟩, rfl⟩
    · rintro ⟨hall, rfl⟩
      obtain ⟨hsuits, hall⟩ := List.forall_mem_cons.1 hall
      exact ⟨_, _, ⟨hsuits, rfl⟩, ih.2 ⟨hall, rfl⟩, rfl⟩

/-- Nodes are registered when each suits its component and their ids are distinct. -/
theorem registerNodes_eq_ok_iff {registered : List Node} : registerNodes catalog ∅ nodes = .ok registered ↔
    (∀ n ∈ nodes, n.Suits catalog) ∧ (Flow.takenIds catalog nodes).Nodup ∧
      registered = nodes.flatMap (Node.groupOf catalog) := by
  constructor
  · intro h
    obtain ⟨hnd, -, groups, hgroups, rfl⟩ := IndexingAux.registerNodes_ok h
    obtain ⟨hsuits, rfl⟩ := forall₂_ofFlowNode_iff.1 hgroups
    rw [← List.flatMap_def] at hnd ⊢
    exact ⟨hsuits, map_id_flatMap_groupOf catalog nodes ▸ hnd, rfl⟩
  · rintro ⟨hsuits, hnd, rfl⟩
    rw [← map_id_flatMap_groupOf, List.flatMap_def] at hnd
    rw [List.flatMap_def]
    exact ReorderingAux.registerNodes_of_nodup (forall₂_ofFlowNode_iff.2 ⟨hsuits, rfl⟩) hnd (by simp)

namespace Indexes

/-- The nodes of a graph are those that the nodes of the flow stand for, in order. -/
theorem toList_nodes (h : Indexes catalog nodes edges g) : g.nodes.toList = nodes.flatMap (Node.groupOf catalog) := by
  obtain ⟨groups, hgroups, hflat⟩ := h.grouped
  obtain ⟨-, rfl⟩ := forall₂_ofFlowNode_iff.1 hgroups
  rw [hflat, List.flatMap_def]

/-- The ids that are taken are those that have a position. -/
theorem mem_takenIds_iff (h : Indexes catalog nodes edges g) {id : String} :
    id ∈ Flow.takenIds catalog nodes ↔ ∃ v, g.idAt v = id := by
  rw [← map_id_flatMap_groupOf, ← h.toList_nodes, List.mem_map]
  simp only [mem_nodes_iff]
  constructor
  · rintro ⟨x, ⟨v, rfl⟩, rfl⟩
    exact ⟨v, rfl⟩
  · rintro ⟨v, rfl⟩
    exact ⟨_, ⟨v, rfl⟩, rfl⟩

/-- An id of a branch is one whose node in the graph is a branch. -/
theorem isBranchId_iff (h : Indexes catalog nodes edges g) {v : Fin g.size} :
    Flow.IsBranchId catalog nodes (g.idAt v) ↔ (g.node v).isBranch = true := by
  constructor
  · rintro ⟨n, hn, b, hb, hid⟩
    obtain ⟨hshape, hb⟩ := Flow.Node.conditional_of_mem hb
    obtain ⟨ids, -, hkind, -⟩ := h.kind_of_conditional hn hshape
    obtain ⟨w, hw⟩ := (h.branches hn hkind).2 b hb
    obtain rfl : w = v := h.ids_injective ((idAt_of_branch hw).trans hid)
    rw [hw]
    rfl
  · intro hv
    obtain ⟨parent, condition, hk⟩ := kind_of_isBranch hv
    obtain ⟨n, hn, ⟨ids, hids⟩, -, b, hb, hw⟩ := h.branch_origin hk
    refine ⟨n, hn, b, ?_, (idAt_of_branch hw).symm⟩
    rwa [Flow.Node.ownBranches_of_conditional (Node.shapeOf?_of_conditional hids)]

/-- The id of any other node is not. -/
theorem not_isBranchId (h : Indexes catalog nodes edges g) {v : Fin g.size} (hv : (g.node v).isBranch = false) :
    ¬ Flow.IsBranchId catalog nodes (g.idAt v) := by
  rw [h.isBranchId_iff, hv]
  exact Bool.false_ne_true

/-- A conditional node of the flow stands at the position of its id. -/
theorem kind_of_conditional_at (h : Indexes catalog nodes edges g) {n : Flow.Node} {v : Fin g.size} (hn : n ∈ nodes)
    (hshape : catalog.shapeOf? n.component = some .conditional) (hid : n.id = g.idAt v) :
    (g.node v).kind = .conditional (n.branches.map (·.id)) := by
  obtain ⟨ids, w, hkind, hw⟩ := h.kind_of_conditional hn hshape
  obtain rfl : w = v := h.ids_injective ((idAt_of_declared hw).trans hid)
  obtain ⟨rfl, -⟩ := Node.kindOf_conditional hkind
  rw [hw]
  rfl

/-- A conditional node of the graph is one of the flow. -/
theorem exists_conditional (h : Indexes catalog nodes edges g) {v : Fin g.size} {ids : List String}
    (hk : (g.node v).kind = .conditional ids) :
    ∃ n ∈ nodes, catalog.shapeOf? n.component = some .conditional ∧ n.id = g.idAt v ∧ ids = n.branches.map (·.id) := by
  obtain ⟨n, hn, hkind, hv⟩ := h.conditional_origin hk
  exact ⟨n, hn, Node.shapeOf?_of_conditional hkind, (idAt_of_declared hv).symm, (Node.kindOf_conditional hkind).1⟩

end Indexes

/-! ## Edges -/

namespace Indexes

/-- An edge with a link fits the nodes. -/
theorem fits_of_edgeLink (h : Indexes catalog nodes edges g) {e : Flow.Edge} {link : Option (Fin g.size × Fin g.size)}
    (hlink : EdgeLink g e link) : e.Fits catalog nodes := by
  obtain ⟨source, target, start, hs, ht, hstart, hb⟩ : ∃ source target start, g.idAt source = e.source ∧
      g.idAt target = e.target ∧ EdgeStart g e source start ∧ (start ≠ none → (g.node target).isBranch = false) := by
    cases hlink with
    | adds hs ht hstart hb => exact ⟨_, _, _, hs, ht, hstart, fun _ => hb⟩
    | repeats hs ht hstart => exact ⟨_, _, _, hs, ht, hstart, fun hne => (hne rfl).elim⟩
  refine ⟨h.mem_takenIds_iff.2 ⟨source, hs⟩, h.mem_takenIds_iff.2 ⟨target, ht⟩, ?_, ?_⟩
  · intro n hn hshape hnid
    have hn' := h.kind_of_conditional_at hn hshape (hnid.trans hs.symm)
    cases hstart with
    | byBranch hk hbranch hid _ =>
      rw [hk] at hn'
      cases hn'
      obtain ⟨b, hmem, rfl⟩ := List.mem_map.1 hid
      exact Or.inl ⟨⟨b, hmem, hbranch⟩, ht ▸ h.not_isBranchId (hb (by simp))⟩
    | declared hk hbranch hid =>
      rw [hk] at hn'
      cases hn'
      exact Or.inr ⟨hbranch, List.mem_map.1 hid⟩
    | direct hother =>
      rw [isConditional_of_kind hn'] at hother
      cases hother
  · intro hnone
    cases hstart with
    | byBranch _ _ _ _ => exact ht ▸ h.not_isBranchId (hb (by simp))
    | declared hk _ _ =>
      obtain ⟨n, hn, hshape, hid, -⟩ := h.exists_conditional hk
      exact (hnone n hn hshape (hid.trans hs)).elim
    | direct _ => exact ht ▸ h.not_isBranchId (hb (by simp))

/-- An edge that fits the nodes adds a link, or repeats what they declare. -/
theorem exists_edgeLink_of_fits (h : Indexes catalog nodes edges g) {e : Flow.Edge} (hfits : e.Fits catalog nodes) :
    ∃ link, EdgeLink g e link := by
  obtain ⟨source, hs⟩ := h.mem_takenIds_iff.1 hfits.source
  obtain ⟨target, ht⟩ := h.mem_takenIds_iff.1 hfits.target
  have notBranch : ¬ Flow.IsBranchId catalog nodes e.target → (g.node target).isBranch = false := by
    rw [← ht, h.isBranchId_iff, Bool.not_eq_true]
    exact id
  by_cases hc : (g.node source).isConditional = true
  · obtain ⟨ids, hk⟩ := kind_of_isConditional hc
    obtain ⟨n, hn, hshape, hid, rfl⟩ := h.exists_conditional hk
    rcases hfits.ofConditional n hn hshape (hid.trans hs) with ⟨⟨b, hb, hbranch⟩, hnot⟩ | ⟨hbranch, b, hb, hid⟩
    · have hmem : b.id ∈ n.branches.map (·.id) := List.mem_map_of_mem hb
      obtain ⟨start, -, hstart, -⟩ := h.find?_branch hk hmem
      exact ⟨_, .adds hs ht (.byBranch hk hbranch hmem (h.find?_eq_some_iff.1 hstart)) (notBranch hnot)⟩
    · exact ⟨_, .repeats hs ht (.declared hk hbranch (hid ▸ List.mem_map_of_mem hb))⟩
  · refine ⟨_, .adds hs ht (.direct (Bool.eq_false_iff.2 hc)) (notBranch (hfits.ofOther fun n hn hshape hnid => hc ?_))⟩
    exact isConditional_of_kind (h.kind_of_conditional_at hn hshape (hnid.trans hs.symm))

/-- An edge is accepted exactly when it fits the nodes. -/
theorem fits_iff (h : Indexes catalog nodes edges g) {e : Flow.Edge} :
    (∃ link, edgeLink? g.nodes g.positions e = .ok link) ↔ e.Fits catalog nodes := by
  simp only [h.edgeLink?_eq_ok_iff]
  exact ⟨fun ⟨_, hlink⟩ => h.fits_of_edgeLink hlink, h.exists_edgeLink_of_fits⟩

end Indexes

/-! ## Whole flows -/

/-- Nodes and edges make a graph exactly when they are well formed, and are refused as malformed when they are not. -/
theorem build_ok_iff_wellFormed (catalog : NodeCatalog) (nodes : List Flow.Node) (edges : List Flow.Edge) :
    ((∃ g, Graph.build catalog nodes edges = .ok g) ↔ Flow.WellFormed catalog nodes edges) ∧
      (¬ Flow.WellFormed catalog nodes edges → ∃ cause, Graph.build catalog nodes edges = .error (.graphMalformed cause)) := by
  have accepted : (∃ g, Graph.build catalog nodes edges = .ok g) ↔ Flow.WellFormed catalog nodes edges := by
    constructor
    · rintro ⟨g, hg⟩
      obtain ⟨hnodes, hedges, registered, links, hreg, hlinks, rfl⟩ := IndexingAux.build_eq_ok_iff.1 hg
      obtain ⟨hsuits, hdistinct, rfl⟩ := registerNodes_eq_ok_iff.1 hreg
      have h := IndexingAux.indexes_ofRegistered hreg hlinks
      exact ⟨hnodes, hedges, hsuits, hdistinct, fun e he => h.fits_iff.1 ((ReorderingAux.edgeLinks_ok_iff.1 hlinks).1 e he)⟩
    · intro hw
      have hreg := registerNodes_eq_ok_iff.2 ⟨hw.suits, hw.distinct, rfl⟩
      -- edges are looked at against the nodes alone, so a graph without edges tells which ones are accepted
      have h : Indexes catalog nodes [] (IndexingAux.ofRegistered _ []) := IndexingAux.indexes_ofRegistered hreg rfl
      have hlinks := ReorderingAux.edgeLinks_ok_iff.2 ⟨fun e he => h.fits_iff.2 (hw.fits e he), rfl⟩
      exact ⟨_, IndexingAux.build_eq_ok_iff.2 ⟨hw.nodes_ne, hw.edges_ne, _, _, hreg, hlinks, rfl⟩⟩
  refine ⟨accepted, fun hw => ?_⟩
  unfold Graph.build at accepted ⊢
  cases hparts : ofParts catalog nodes edges with
  | error cause => exact ⟨cause, rfl⟩
  | ok g =>
    rw [hparts] at accepted
    exact absurd (accepted.1 ⟨g, rfl⟩) hw

end Graph

end FlowPlan
