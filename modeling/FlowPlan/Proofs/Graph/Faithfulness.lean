import FlowPlan.Compile.Compiler
import FlowPlan.Proofs.Graph.Acceptance
import Mathlib.Logic.Relation

/-!
# What a graph says of its flow

`Faithful` says what can be asked of a graph in terms of the flow that it indexes: which nodes it has, and what the successors and
predecessors of each one are. Every graph that `build` makes is faithful. An edge that is said again, that repeats what a
conditional node declares, or that leaves a branch under its other name changes nothing in the graph (`faithful_of_build`).
-/

namespace FlowPlan

/-- Edges of a flow that say the same: one step from one list to the other. -/
inductive Flow.Respells (catalog : NodeCatalog) (nodes : List Flow.Node) : List Flow.Edge → List Flow.Edge → Prop
  /-- an edge is said again behind itself -/
  | again {front e back} : e ∈ front → Respells catalog nodes (front ++ e :: back) (front ++ back)
  /-- a conditional node leads to its branches without an edge -/
  | declared {front back n b} : n ∈ nodes → b ∈ n.ownBranches catalog →
      Respells catalog nodes (front ++ { source := n.id, target := b.id } :: back) (front ++ back)
  /-- a branch is left under its own id, or by way of its node -/
  | renamed {front back n b output target} : n ∈ nodes → b ∈ n.ownBranches catalog →
      Respells catalog nodes (front ++ { source := b.id, branch := output, target := target } :: back)
        (front ++ { source := n.id, branch := some b.id, target := target } :: back)

namespace Graph

/-- An edge leaves a node: it starts there or, when the node is a branch, at the node of the branch under the id of the branch. -/
def Node.isLeftBy (x : Node) (e : Flow.Edge) : Bool :=
  match x.kind with
  | .branch parent _ => e.source == x.id || (e.source == parent && e.branch == some x.id)
  | _ => e.source == x.id

/-- A graph holds the nodes and links of its flow, in order, and nothing else. -/
structure Faithful (catalog : NodeCatalog) (nodes : List Flow.Node) (edges : List Flow.Edge) (g : Graph) : Prop where
  /-- the nodes of the flow as declared, each conditional one followed by its branches -/
  listed : g.nodes.toList = nodes.flatMap (Node.groupOf catalog)
  found : ∀ id x, g.node? id = some x ↔ x ∈ g.nodes.toList ∧ x.id = id
  /-- a conditional node leads to its branches, in the order of the declaration -/
  conditional : ∀ n ∈ nodes, catalog.shapeOf? n.component = some .conditional → g.successors n.id = n.branches.map (·.id)
  /-- any other node leads to the targets of the edges that leave it, each where it first occurs -/
  other : ∀ x ∈ g.nodes.toList, x.isConditional = false →
    g.successors x.id = ((edges.filter x.isLeftBy).map (·.target)).eraseDups
  converse : ∀ v w, v ∈ g.predecessors w ↔ w ∈ g.successors v
  once : ∀ w, (g.predecessors w).Nodup
  parent : ∀ n ∈ nodes, ∀ b ∈ n.ownBranches catalog, g.predecessors b.id = [n.id]

namespace Indexes

variable {catalog : NodeCatalog} {nodes : List Flow.Node} {edges : List Flow.Edge} {g : Graph}

/-! ## Nodes and branches -/

/-- To look a node up is to find the one that is listed with the id. -/
theorem node?_eq_some_iff (h : Indexes catalog nodes edges g) {id : String} {x : Node} :
    g.node? id = some x ↔ x ∈ g.nodes.toList ∧ x.id = id := by
  rw [mem_nodes_iff]
  constructor
  · intro hid
    obtain ⟨v, hv, hx⟩ := h.exists_of_node? hid
    exact ⟨⟨v, hx⟩, hx ▸ hv⟩
  · rintro ⟨⟨v, rfl⟩, rfl⟩
    exact h.node?_idAt v

/-- A branch of a conditional node stands in the graph, and so does its node. -/
theorem exists_ownBranch (h : Indexes catalog nodes edges g) {n : Flow.Node} (hn : n ∈ nodes) {b : Flow.Branch}
    (hb : b ∈ n.ownBranches catalog) :
    ∃ u v, g.node u = .declared n (.conditional (n.branches.map (·.id))) ∧ g.node v = .ofBranch n b ∧
      b.id ∈ n.branches.map (·.id) := by
  obtain ⟨hshape, hb⟩ := Flow.Node.conditional_of_mem hb
  obtain ⟨ids, u, hkind, hu⟩ := h.kind_of_conditional hn hshape
  obtain ⟨rfl, -⟩ := Node.kindOf_conditional hkind
  obtain ⟨v, hv⟩ := (h.branches hn hkind).2 b hb
  exact ⟨u, v, hu, hv, List.mem_map_of_mem hb⟩

/-- A conditional node leads to its branches in the order of their declaration, and nowhere else. -/
theorem successors_of_conditional (h : Indexes catalog nodes edges g) {n : Flow.Node} (hn : n ∈ nodes)
    (hshape : catalog.shapeOf? n.component = some .conditional) : g.successors n.id = n.branches.map (·.id) := by
  obtain ⟨ids, v, hkind, hv⟩ := h.kind_of_conditional hn hshape
  obtain ⟨rfl, -⟩ := Node.kindOf_conditional hkind
  obtain ⟨m, -, hm, hids, -, hmatch⟩ := h.successors_conditional (v := v) (by rw [hv]; rfl)
  rw [hids, ← idAt_of_declared hv, h.successors_idAt]
  refine List.forall₂_eq_eq_eq ▸ List.forall₂_map_left_iff.2 (List.forall₂_map_right_iff.2 ?_)
  exact hmatch.imp fun w b hw => idAt_of_branch hw

/-- To a branch leads its node, and nothing else. -/
theorem predecessors_of_branch (h : Indexes catalog nodes edges g) {n : Flow.Node} (hn : n ∈ nodes) {b : Flow.Branch}
    (hb : b ∈ n.ownBranches catalog) : g.predecessors b.id = [n.id] := by
  obtain ⟨-, v, -, hv, -⟩ := h.exists_ownBranch hn hb
  obtain ⟨u, -, hu, -, hpredecessors⟩ := h.predecessors_branch (w := v) (by rw [hv]; rfl)
  rw [← idAt_of_branch hv, h.predecessors_idAt, hpredecessors, List.map_singleton, hu]

/-- No node is among the predecessors twice, however often its edges are said. -/
theorem nodup_predecessors (h : Indexes catalog nodes edges g) (id : String) : (g.predecessors id).Nodup := by
  rw [predecessors]
  cases g.find? id with
  | none => exact List.nodup_nil
  | some w => exact (h.nodup_predecessorsAt w).map fun _ _ => h.ids_injective

/-! ## Edges that leave a node -/

/-- An accepted edge leaves a node that is not conditional exactly when its link starts there. -/
theorem isLeftBy_iff (h : Indexes catalog nodes edges g) {e : Flow.Edge} {source v : Fin g.size} {start : Option (Fin g.size)}
    (hs : g.idAt source = e.source) (hstart : EdgeStart g e source start) (hv : (g.node v).isConditional = false) :
    (g.node v).isLeftBy e = true ↔ start = some v := by
  have leaves : (g.node v).isLeftBy e = true ↔
      source = v ∨ ∃ parent condition, (g.node v).kind = .branch parent condition ∧ parent = g.idAt source ∧
        e.branch = some (g.idAt v) := by
    unfold Node.isLeftBy
    rw [← hs, ← idAt]
    split
    · rename_i parent condition hk
      simp [hk, @eq_comm _ parent]
    · rename_i hk
      rw [beq_iff_eq, h.idAt_inj]
      refine (or_iff_left ?_).symm
      rintro ⟨parent, condition, hb, -⟩
      exact hk parent condition hb
  have ne_conditional : ∀ {ids}, (g.node source).kind = .conditional ids → source ≠ v := by
    rintro ids hk rfl
    rw [isConditional_of_kind hk] at hv
    cases hv
  rw [leaves]
  cases hstart with
  | @byBranch ids id start hk hbranch hid hstart =>
    rw [or_iff_right (ne_conditional hk), hbranch, Option.some.injEq, Option.some.injEq]
    constructor
    · rintro ⟨-, -, -, -, rfl⟩
      exact h.ids_injective hstart
    · rintro rfl
      obtain ⟨w, condition, hw, hkind⟩ := h.find?_branch hk hid
      obtain rfl : w = start := h.ids_injective ((h.find?_eq_some_iff.1 hw).trans hstart.symm)
      exact ⟨_, condition, hkind, rfl, hstart.symm⟩
  | declared hk hbranch hid =>
    rw [or_iff_right (ne_conditional hk), hbranch]
    simp
  | direct hother =>
    rw [Option.some.injEq]
    refine or_iff_left ?_
    rintro ⟨parent, condition, hk, hid, -⟩
    obtain ⟨u, ids, hu, hku, -⟩ := h.predecessors_branch hk
    obtain rfl : u = source := h.ids_injective (hu.trans hid)
    rw [isConditional_of_kind hku] at hother
    cases hother

/-- Any other node leads to the targets of the edges that leave it, each one at the place of its first edge. -/
theorem successors_of_other (h : Indexes catalog nodes edges g) {v : Fin g.size} (hv : (g.node v).isConditional = false) :
    g.successors (g.idAt v) = ((edges.filter (g.node v).isLeftBy).map (·.target)).eraseDups := by
  obtain ⟨links, hlinks, hadj⟩ := h.linked
  obtain ⟨haccepted, rfl⟩ := ReorderingAux.edgeLinks_ok_iff.1 hlinks
  have noBranches : (g.nodes.get v).branchIds = [] := by
    change (g.node v).branchIds = []
    unfold Node.branchIds
    split
    · rename_i hk
      rw [isConditional_of_kind hk] at hv
      cases hv
    · rfl
  have targets : (((edges.filterMap (ReorderingAux.linkOf g.nodes g.positions)).filter fun l => l.1 == v).map (·.2)).map g.idAt =
      (edges.filter (g.node v).isLeftBy).map (·.target) := by
    rw [List.map_map, ← List.filterMap_eq_map, ← List.filterMap_eq_map, ← List.filterMap_eq_filter, ← List.filterMap_eq_filter,
      List.filterMap_filterMap, List.filterMap_filterMap, List.filterMap_filterMap]
    refine List.filterMap_congr fun e he => ?_
    obtain ⟨link, hlink⟩ := haccepted e he
    have hlinkOf : ReorderingAux.linkOf g.nodes g.positions e = link := by rw [ReorderingAux.linkOf, hlink]; rfl
    rw [hlinkOf]
    cases h.edgeLink?_eq_ok_iff.1 hlink with
    | @adds source target start hs ht hstart _ =>
      by_cases hsv : start = v
      · simp [hsv, (h.isLeftBy_iff hs hstart hv).2 (congrArg some hsv), Option.guard, ht]
      · simp [hsv, mt (h.isLeftBy_iff hs hstart hv).1 (mt Option.some.inj hsv), Option.guard]
    | repeats hs _ hstart =>
      have hnot : (g.node v).isLeftBy e = false :=
        Bool.eq_false_iff.2 (mt (h.isLeftBy_iff hs hstart hv).1 (Option.some_ne_none v).symm)
      simp [hnot, Option.guard]
  have hinjective : Function.Injective g.idAt := fun _ _ => h.ids_injective
  rw [h.successors_idAt, successorsAt, hadj, Adjacency.successors_ofLinks, Adjacency.targets, List.filter_append, List.map_append,
    IndexingAux.map_filter_branchLinks, noBranches, List.filterMap_nil, List.nil_append, ← LinksAux.eraseDups_map hinjective,
    targets]

/-- A graph that indexes a flow is faithful to it. -/
theorem faithful (h : Indexes catalog nodes edges g) : Faithful catalog nodes edges g where
  listed := h.toList_nodes
  found := fun _ _ => h.node?_eq_some_iff
  conditional := fun _ hn hshape => h.successors_of_conditional hn hshape
  other := by
    intro x hx hc
    obtain ⟨v, rfl⟩ := mem_nodes_iff.1 hx
    exact h.successors_of_other hc
  converse := fun _ _ => h.mem_predecessors_iff
  once := h.nodup_predecessors
  parent := fun _ hn _ hb => h.predecessors_of_branch hn hb

/-! ## Edges that say the same -/

/-- Of two lists of edges, both are accepted or none is, and they leave the same links. -/
structure Alike (g : Graph) (edges edges' : List Flow.Edge) : Prop where
  accepted : (∀ e ∈ edges, ∃ l, edgeLink? g.nodes g.positions e = .ok l) ↔
    ∀ e ∈ edges', ∃ l, edgeLink? g.nodes g.positions e = .ok l
  links : Adjacency.ofLinks (branchLinks g.nodes g.positions ++ edges.filterMap (ReorderingAux.linkOf g.nodes g.positions)) =
    .ofLinks (branchLinks g.nodes g.positions ++ edges'.filterMap (ReorderingAux.linkOf g.nodes g.positions))

/-- One step between lists of edges that say the same. -/
theorem alike_of_respells (h : Indexes catalog nodes edges g) {before after : List Flow.Edge}
    (hr : Flow.Respells catalog nodes before after) : Alike g before after := by
  cases hr with
  | @again front e back he =>
    constructor
    · simp only [List.forall_mem_append, List.forall_mem_cons]
      exact ⟨fun ⟨hfront, _, hback⟩ => ⟨hfront, hback⟩, fun ⟨hfront, hback⟩ => ⟨hfront, hfront e he, hback⟩⟩
    · rw [List.filterMap_append, List.filterMap_append, List.filterMap_cons, ← List.append_assoc, ← List.append_assoc]
      cases hl : ReorderingAux.linkOf g.nodes g.positions e with
      | none => rfl
      | some l => exact Adjacency.ofLinks_append_cons (List.mem_append_right _ (List.mem_filterMap.2 ⟨e, he, hl⟩))
  | @declared front back n b hn hb =>
    obtain ⟨u, v, hu, hv, hid⟩ := h.exists_ownBranch hn hb
    have hlink : edgeLink? g.nodes g.positions { source := n.id, target := b.id } = .ok none :=
      h.edgeLink?_eq_ok_iff.2 (.repeats (idAt_of_declared hu) (idAt_of_branch hv) (.declared (by rw [hu]; rfl) rfl hid))
    constructor
    · simp only [List.forall_mem_append, List.forall_mem_cons, hlink]
      simp
    · rw [List.filterMap_append, List.filterMap_append, List.filterMap_cons_none (by rw [ReorderingAux.linkOf, hlink]; rfl)]
  | @renamed front back n b output target hn hb =>
    obtain ⟨u, v, hu, hv, hid⟩ := h.exists_ownBranch hn hb
    have hlink : edgeLink? g.nodes g.positions { source := b.id, branch := output, target := target } =
        edgeLink? g.nodes g.positions { source := n.id, branch := some b.id, target := target } := by
      have hstart : edgeStart? g.nodes g.positions { source := b.id, branch := output, target := target } v = .ok (some v) :=
        h.edgeStart?_eq_ok_iff.2 (.direct (by rw [hv]; rfl))
      have hstart' : edgeStart? g.nodes g.positions { source := n.id, branch := some b.id, target := target } u =
          .ok (some v) :=
        h.edgeStart?_eq_ok_iff.2 (.byBranch (by rw [hu]; rfl) rfl hid (idAt_of_branch hv))
      unfold edgeLink?
      rw [show g.positions[n.id]? = some u from h.find?_eq_some_iff.2 (idAt_of_declared hu),
        show g.positions[b.id]? = some v from h.find?_eq_some_iff.2 (idAt_of_branch hv)]
      cases g.positions[target]? with
      | none => rfl
      | some w => simp only [hstart, hstart']
    constructor
    · simp only [List.forall_mem_append, List.forall_mem_cons, hlink]
    · simp only [List.filterMap_append, List.filterMap_cons, ReorderingAux.linkOf, hlink]

/-- Many such steps, in both directions. -/
theorem alike_of_eqvGen (h : Indexes catalog nodes edges g) {before after : List Flow.Edge}
    (hr : Relation.EqvGen (Flow.Respells catalog nodes) before after) : Alike g before after := by
  induction hr with
  | rel _ _ hr => exact h.alike_of_respells hr
  | refl _ => exact ⟨Iff.rfl, rfl⟩
  | symm _ _ _ ih => exact ⟨ih.accepted.symm, ih.links.symm⟩
  | trans _ _ _ _ _ ih ih' => exact ⟨ih.accepted.trans ih'.accepted, ih.links.trans ih'.links⟩

end Indexes

open IndexingAux in
/-- Edges that say the same make the same graph. -/
theorem build_of_eqvGen {catalog : NodeCatalog} {nodes : List Flow.Node} {edges edges' : List Flow.Edge} {g : Graph}
    (hg : Graph.build catalog nodes edges = .ok g) (hr : Relation.EqvGen (Flow.Respells catalog nodes) edges edges')
    (hne : edges' ≠ []) : Graph.build catalog nodes edges' = .ok g := by
  have halike := (indexes_of_build hg).alike_of_eqvGen hr
  obtain ⟨hnodes, -, registered, links, hreg, hlinks, rfl⟩ := build_eq_ok_iff.1 hg
  obtain ⟨haccepted, rfl⟩ := ReorderingAux.edgeLinks_ok_iff.1 hlinks
  have hlinks' := ReorderingAux.edgeLinks_ok_iff.2 ⟨halike.accepted.1 haccepted, rfl⟩
  refine build_eq_ok_iff.2 ⟨hnodes, hne, registered, _, hreg, hlinks', ?_⟩
  exact congrArg (Graph.mk registered.length (listed registered) (positionsOf (listed registered))) halike.links

end Graph

open FlowPlan.Graph

/-- A graph is faithful to the flow that it is built from. As long as some edge is left, edges that say the same make the same
graph, and so flows that differ in nothing else have the same compilations. -/
theorem faithful_of_build {catalog : NodeCatalog} {nodes : List Flow.Node} {edges : List Flow.Edge} {g : Graph}
    (hg : Graph.build catalog nodes edges = .ok g) :
    Faithful catalog nodes edges g ∧ ∀ edges', Relation.EqvGen (Flow.Respells catalog nodes) edges edges' → edges' ≠ [] →
      Graph.build catalog nodes edges' = .ok g ∧ ∀ (c : Compiler) (id : String), c.catalog = catalog →
        c.compile ⟨id, nodes, edges'⟩ = c.compile ⟨id, nodes, edges⟩ := by
  refine ⟨(indexes_of_build hg).faithful, fun edges' hr hne => ?_⟩
  have hg' := build_of_eqvGen hg hr hne
  refine ⟨hg', ?_⟩
  rintro c id rfl
  have hsame : c.index ⟨id, nodes, edges'⟩ = c.index ⟨id, nodes, edges⟩ := hg'.trans hg.symm
  rw [Compiler.compile, hsame]
  rfl

/-- A choice at C, both branches of which lead to D. -/
def Flow.triage : Flow where
  id := "triage"
  nodes := [
    { id := "A", component := "script" },
    { id := "C", component := "choice", branches := [⟨"urgent", some "priority > 3"⟩, ⟨"other", none⟩] },
    { id := "D", component := "script" }]
  edges := [
    { source := "A", target := "C" },
    { source := "C", branch := some "urgent", target := "D" },
    { source := "other", target := "D" }]

/-- The edges of `Flow.triage` in other words: the first one twice, one that C declares already, and one that leaves the branch
under its own id. -/
def Flow.wordyTriage : List Flow.Edge := [
  { source := "A", target := "C" },
  { source := "urgent", target := "D" },
  { source := "A", target := "C" },
  { source := "C", target := "other" },
  { source := "other", target := "D" }]

/-- `Flow.triage` has the same graph in other words. -/
theorem faithful_of_build_triage : ∃ g, Graph.build .standard Flow.triage.nodes Flow.triage.edges = .ok g ∧
    Faithful .standard Flow.triage.nodes Flow.triage.edges g ∧
      Relation.EqvGen (Flow.Respells .standard Flow.triage.nodes) Flow.triage.edges Flow.wordyTriage ∧
        Graph.build .standard Flow.triage.nodes Flow.wordyTriage = .ok g := by
  obtain ⟨g, hg⟩ : ∃ g, Graph.build .standard Flow.triage.nodes Flow.triage.edges = .ok g := by
    decide +kernel
  have hn : Flow.triage.nodes[1] ∈ Flow.triage.nodes := List.getElem_mem _
  have renamed : Flow.Respells .standard Flow.triage.nodes
      [⟨"A", none, "C"⟩, ⟨"urgent", none, "D"⟩, ⟨"other", none, "D"⟩] Flow.triage.edges :=
    @Flow.Respells.renamed _ _ [⟨"A", none, "C"⟩] [⟨"other", none, "D"⟩] _ ⟨"urgent", some "priority > 3"⟩ none "D" hn
      (by decide +kernel)
  have declared : Flow.Respells .standard Flow.triage.nodes
      [⟨"A", none, "C"⟩, ⟨"urgent", none, "D"⟩, ⟨"C", none, "other"⟩, ⟨"other", none, "D"⟩]
      [⟨"A", none, "C"⟩, ⟨"urgent", none, "D"⟩, ⟨"other", none, "D"⟩] :=
    @Flow.Respells.declared _ _ [⟨"A", none, "C"⟩, ⟨"urgent", none, "D"⟩] [⟨"other", none, "D"⟩] _ ⟨"other", none⟩ hn
      (by decide +kernel)
  have again : Flow.Respells .standard Flow.triage.nodes Flow.wordyTriage
      [⟨"A", none, "C"⟩, ⟨"urgent", none, "D"⟩, ⟨"C", none, "other"⟩, ⟨"other", none, "D"⟩] :=
    @Flow.Respells.again _ _ [⟨"A", none, "C"⟩, ⟨"urgent", none, "D"⟩] ⟨"A", none, "C"⟩ [⟨"C", none, "other"⟩, ⟨"other", none, "D"⟩]
      (List.mem_cons_self ..)
  have hr : Relation.EqvGen (Flow.Respells .standard Flow.triage.nodes) Flow.triage.edges Flow.wordyTriage :=
    .symm _ _ (.trans _ _ _ (.rel _ _ again) (.trans _ _ _ (.rel _ _ declared) (.rel _ _ renamed)))
  obtain ⟨hfaithful, hsame⟩ := faithful_of_build hg
  exact ⟨g, hg, hfaithful, hr, (hsame _ hr (by decide)).1⟩

end FlowPlan
