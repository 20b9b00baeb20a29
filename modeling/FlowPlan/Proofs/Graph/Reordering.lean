import FlowPlan.Proofs.Graph.Renumbering

/-!
# Flows listed in another order

The nodes and edges of a flow may be listed in another order. Then the flow is indexed all the same
(`Graph.exists_build_of_perm`), and the positions of its nodes are others. Nothing else is, as long as the edges that leave the
same node or branch keep their order, and the merge nodes theirs (`Graph.renumbers_of_perm`).
-/

namespace FlowPlan.Graph

/-- Where an edge starts, by id: at the branch that it names when its source is conditional, else at its source. -/
def startOf (g : Graph) (edge : Flow.Edge) : String :=
  if (g.node? edge.source).any Node.isConditional then edge.branch.getD edge.source else edge.source

/-! ## Helpers: registration -/

namespace ReorderingAux

open IndexingAux

/-- New and pairwise distinct ids are accepted. -/
theorem takeIds_of_nodup {taken : Std.TreeSet String} {nodes : List Node} (hnd : (nodes.map (·.id)).Nodup)
    (hnew : ∀ x ∈ nodes, x.id ∉ taken) : ∃ taken', takeIds taken nodes = .ok taken' := by
  induction nodes generalizing taken with
  | nil => exact ⟨taken, rfl⟩
  | cons x rest ih =>
    rw [List.map_cons, List.nodup_cons] at hnd
    have hx : taken.contains x.id = false :=
      Bool.eq_false_iff.2 (mt Std.TreeSet.mem_iff_contains.2 (hnew x (List.mem_cons_self ..)))
    have hrest : ∀ y ∈ rest, y.id ∉ taken.insert x.id := by
      intro y hy hmem
      rcases Std.TreeSet.mem_insert.1 hmem with heq | hmem
      · rw [Std.LawfulEqCmp.compare_eq_iff_eq] at heq
        exact hnd.1 (heq ▸ List.mem_map_of_mem hy)
      · exact hnew y (List.mem_cons_of_mem _ hy) hmem
    obtain ⟨taken', htaken⟩ := ih hnd.2 hrest
    exact ⟨taken', by rw [takeIds, hx]; exact htaken⟩

/-- Groups of nodes under distinct ids are registered. -/
theorem registerNodes_of_nodup {catalog : NodeCatalog} {taken : Std.TreeSet String} {nodes : List Flow.Node}
    {groups : List (List Node)} (hgroups : List.Forall₂ (fun n group => Node.ofFlowNode catalog n = .ok group) nodes groups)
    (hnd : (groups.flatten.map (·.id)).Nodup) (hnew : ∀ x ∈ groups.flatten, x.id ∉ taken) :
    registerNodes catalog taken nodes = .ok groups.flatten := by
  induction hgroups generalizing taken with
  | nil => rfl
  | @cons n group _ groups hgroup _ ih =>
    rw [List.flatten_cons, List.map_append, List.nodup_append] at hnd
    obtain ⟨taken', htaken⟩ := takeIds_of_nodup hnd.1 fun x hx => hnew x (List.mem_append_left _ hx)
    have hrest : ∀ x ∈ groups.flatten, x.id ∉ taken' := by
      intro x hx hmem
      rcases ((takeIds_ok htaken).2.2 x.id).1 hmem with hmem | hmem
      · exact hnew x (List.mem_append_right _ hx) hmem
      · exact hnd.2.2 x.id hmem x.id (List.mem_map_of_mem hx) rfl
    simp only [registerNodes, hgroup, htaken, ih hnd.2.1 hrest, bind, Except.bind]
    rfl

/-- Nodes under distinct ids that stand in another order have a numbering each way. -/
theorem exists_equiv_of_perm {n m : Nat} {nodes : Vector Node n} {nodes' : Vector Node m}
    (hperm : nodes.toList.Perm nodes'.toList) (hnd : (nodes.toList.map (·.id)).Nodup) :
    ∃ r : Fin n ≃ Fin m, ∀ v, nodes'.get (r v) = nodes.get v := by
  have hnd' : (nodes'.toList.map (·.id)).Nodup := (hperm.map _).nodup_iff.1 hnd
  have forth : ∀ v, ∃ v', nodes'.get v' = nodes.get v :=
    fun v => mem_toList_iff.1 (hperm.mem_iff.1 (mem_toList_iff.2 ⟨v, rfl⟩))
  have back : ∀ v', ∃ v, nodes.get v = nodes'.get v' :=
    fun v' => mem_toList_iff.1 (hperm.mem_iff.2 (mem_toList_iff.2 ⟨v', rfl⟩))
  choose r hr using forth
  have hinjective : Function.Injective r := by
    intro v w he
    exact get_injective hnd (by rw [← hr v, ← hr w, he])
  have hsurjective : Function.Surjective r := by
    intro v'
    obtain ⟨v, hv⟩ := back v'
    exact ⟨v, get_injective hnd' (by rw [hr v, hv])⟩
  exact ⟨Equiv.ofBijective r ⟨hinjective, hsurjective⟩, hr⟩

section Numbers

variable {n m : Nat} {nodes : Vector Node n} {nodes' : Vector Node m} {r : Fin n ≃ Fin m}
  (hnode : ∀ v, nodes'.get (r v) = nodes.get v) (hnd : (nodes.toList.map (·.id)).Nodup)

include hnode hnd

/-- An id is found at the other number. -/
theorem positionsOf_renumbered (id : String) : (positionsOf nodes')[id]? = (positionsOf nodes)[id]?.map r := by
  have hinjective : ∀ v w, (nodes'.get v).id = (nodes'.get w).id → v = w := by
    intro v w he
    obtain ⟨v, rfl⟩ := r.surjective v
    obtain ⟨w, rfl⟩ := r.surjective w
    rw [hnode, hnode] at he
    exact congrArg r (get_injective hnd he)
  refine Option.ext fun x => ?_
  obtain ⟨v, rfl⟩ := r.surjective x
  rw [getElem?_positionsOf hinjective, RenumberingAux.map_eq_some_iff, getElem?_positionsOf fun _ _ => get_injective hnd, hnode]

/-- An edge starts at the image of its start. -/
theorem edgeStart?_renumbered (edge : Flow.Edge) (source : Fin n) :
    edgeStart? nodes' (positionsOf nodes') edge (r source) =
      (edgeStart? nodes (positionsOf nodes) edge source).map (Option.map r) := by
  unfold edgeStart?
  rw [hnode]
  split
  · split
    · rw [positionsOf_renumbered hnode hnd, Option.getD_map]
      rfl
    · rfl
  · split <;> rfl
  · rfl

/-- An edge is accepted or refused for the same reason, and makes the same link. -/
theorem edgeLink?_renumbered (edge : Flow.Edge) :
    edgeLink? nodes' (positionsOf nodes') edge =
      (edgeLink? nodes (positionsOf nodes) edge).map (Option.map (Prod.map r r)) := by
  unfold edgeLink?
  rw [positionsOf_renumbered hnode hnd, positionsOf_renumbered hnode hnd]
  cases (positionsOf nodes)[edge.source]? with
  | none => rfl
  | some source =>
    cases (positionsOf nodes)[edge.target]? with
    | none => rfl
    | some target =>
      simp only [Option.map_some, edgeStart?_renumbered hnode hnd]
      cases edgeStart? nodes (positionsOf nodes) edge source with
      | error e => rfl
      | ok start =>
        cases start with
        | none => rfl
        | some start =>
          simp only [Except.map, Option.map_some, bind, Except.bind, hnode]
          split
          · rename_i parent _ _
            by_cases hid : (nodes.get start).id = parent
            · simp only [if_pos hid]
              rfl
            · simp only [if_neg hid]
              rfl
          · rfl

end Numbers

/-- The link of an edge, if it is accepted and adds one. -/
def linkOf {n : Nat} (nodes : Vector Node n) (positions : Std.TreeMap String (Fin n)) (edge : Flow.Edge) :
    Option (Fin n × Fin n) :=
  (edgeLink? nodes positions edge).toOption.join

/-- Edges are accepted when each one is, and then make their links in order. -/
theorem edgeLinks_ok_iff {n : Nat} {nodes : Vector Node n} {positions : Std.TreeMap String (Fin n)} {edges : List Flow.Edge}
    {links : List (Fin n × Fin n)} : edgeLinks nodes positions edges = .ok links ↔
      (∀ e ∈ edges, ∃ l, edgeLink? nodes positions e = .ok l) ∧ links = edges.filterMap (linkOf nodes positions) := by
  induction edges generalizing links with
  | nil =>
    rw [edgeLinks, Except.ok.injEq]
    simp [eq_comm]
  | cons edge rest ih =>
    constructor
    · intro h
      obtain ⟨l, hl, h⟩ := bind_ok h
      obtain ⟨others, hothers, h⟩ := bind_ok h
      cases h
      obtain ⟨hall, rfl⟩ := ih.1 hothers
      refine ⟨List.forall_mem_cons.2 ⟨⟨l, hl⟩, hall⟩, ?_⟩
      rw [List.filterMap_cons, linkOf, hl]
      cases l <;> rfl
    · rintro ⟨hall, rfl⟩
      obtain ⟨⟨l, hl⟩, hall⟩ := List.forall_mem_cons.1 hall
      have hothers := ih.2 ⟨hall, rfl⟩
      simp only [edgeLinks, hl, hothers, bind, Except.bind]
      rw [List.filterMap_cons, linkOf, hl]
      cases l <;> rfl

end ReorderingAux

variable {catalog : NodeCatalog} {nodes nodes' : List Flow.Node} {edges edges' : List Flow.Edge} {g g' : Graph}

/-! ## Indexing all the same -/

/-- A flow that is indexed is indexed in any other order of its nodes and edges, under other numbers. -/
theorem exists_build_of_perm (hg : Graph.build catalog nodes edges = .ok g) (hnodes : nodes.Perm nodes')
    (hedges : edges.Perm edges') :
    ∃ (g' : Graph) (r : Fin g.size ≃ Fin g'.size),
      Graph.build catalog nodes' edges' = .ok g' ∧ ∀ v, g'.node (r v) = g.node v := by
  have h := indexes_of_build hg
  obtain ⟨groups, hgroups, hflat⟩ := h.grouped
  obtain ⟨groups', hgroups', hperm⟩ := List.perm_comp_forall₂ hnodes.symm hgroups
  have hregistered : g.nodes.toList.Perm groups'.flatten := hflat ▸ hperm.symm.flatten
  have hreg : registerNodes catalog ∅ nodes' = .ok groups'.flatten := by
    refine ReorderingAux.registerNodes_of_nodup hgroups' ?_ (by simp)
    exact (hregistered.map _).nodup_iff.1 h.distinct
  have hlisted : g.nodes.toList.Perm (IndexingAux.listed groups'.flatten).toList := by
    rwa [IndexingAux.toList_listed]
  obtain ⟨r, hr⟩ := ReorderingAux.exists_equiv_of_perm hlisted h.distinct
  obtain ⟨links, hlinks, -⟩ := h.linked
  rw [h.positions_eq, ReorderingAux.edgeLinks_ok_iff] at hlinks
  have haccepted : ∀ e ∈ edges', ∃ l, edgeLink? (IndexingAux.listed groups'.flatten)
      (positionsOf (IndexingAux.listed groups'.flatten)) e = .ok l := by
    intro e he
    obtain ⟨l, hl⟩ := hlinks.1 e (hedges.mem_iff.2 he)
    exact ⟨l.map (Prod.map r r), by rw [ReorderingAux.edgeLink?_renumbered hr h.distinct, hl]; rfl⟩
  obtain ⟨hsome, hsome', -⟩ := IndexingAux.build_eq_ok_iff.1 hg
  refine ⟨IndexingAux.ofRegistered groups'.flatten _, r, IndexingAux.build_eq_ok_iff.2 ⟨?_, ?_, _, _, hreg,
    ReorderingAux.edgeLinks_ok_iff.2 ⟨haccepted, rfl⟩, rfl⟩, hr⟩
  · rintro rfl
    exact hsome hnodes.eq_nil
  · rintro rfl
    exact hsome' hedges.eq_nil

/-! ## The same graph under other numbers -/

namespace Indexes

open ReorderingAux

/-- The start of an accepted edge by its id. -/
theorem startOf_of_edgeStart (h : Indexes catalog nodes edges g) {edge : Flow.Edge} {source v : Fin g.size}
    (hsource : g.idAt source = edge.source) (he : edgeStart? g.nodes g.positions edge source = .ok (some v)) :
    g.startOf edge = g.idAt v := by
  have hnode : g.node? edge.source = some (g.node source) := hsource ▸ h.node?_idAt source
  rw [startOf, hnode, Option.any_some]
  unfold edgeStart? at he
  split at he
  · rename_i branches branch hk hb
    split at he
    · rename_i hc
      obtain ⟨w, condition, hw, -⟩ := h.find?_branch hk (List.contains_iff_mem.1 hc)
      have hpos : g.positions[branch]? = some w := hw
      rw [hpos, Option.getD_some] at he
      cases he
      rw [isConditional_of_kind hk, if_pos rfl, hb, Option.getD_some]
      exact (h.find?_eq_some_iff.1 hw).symm
    · cases he
  · split at he <;> cases he
  · rename_i hnone hsome
    cases he
    have hplain : (g.node source).isConditional = false := by
      cases hk : (g.node source).kind with
      | conditional ids =>
        cases hb : edge.branch with
        | none => exact (hsome ids hk hb).elim
        | some branch => exact (hnone ids branch hk hb).elim
      | _ => rw [Node.isConditional, hk]
    rw [hplain, if_neg Bool.false_ne_true, hsource]

theorem startOf_of_link (h : Indexes catalog nodes edges g) {edge : Flow.Edge} {v w : Fin g.size}
    (he : linkOf g.nodes g.positions edge = some (v, w)) : g.startOf edge = g.idAt v := by
  have hlink : edgeLink? g.nodes g.positions edge = .ok (some (v, w)) := by
    rw [linkOf] at he
    cases hl : edgeLink? g.nodes g.positions edge with
    | error e =>
      rw [hl] at he
      cases he
    | ok l =>
      rw [hl] at he
      exact congrArg _ he
  unfold edgeLink? at hlink
  split at hlink
  · rename_i source hs
    split at hlink
    · obtain ⟨start, hstart, hlink⟩ := IndexingAux.bind_ok hlink
      have hsource : g.idAt source = edge.source := h.find?_eq_some_iff.1 hs
      split at hlink
      · rename_i start
        refine h.startOf_of_edgeStart hsource (hstart.trans ?_)
        split at hlink
        · split at hlink
          · cases hlink
            rfl
          · cases hlink
        · cases hlink
          rfl
      · cases hlink
    · cases hlink
  · cases hlink

/-- The successors of a node are its branches and then the targets of the edges that start at it, in order. -/
theorem successorsAt_eq (h : Indexes catalog nodes edges g) (v : Fin g.size) :
    g.successorsAt v = ((g.node v).branchIds.filterMap (fun id => g.positions[id]?) ++
      ((edges.filter fun e => g.startOf e = g.idAt v).filterMap (linkOf g.nodes g.positions)).map (·.2)).eraseDups := by
  obtain ⟨links, hlinks, hadj⟩ := h.linked
  obtain ⟨-, rfl⟩ := edgeLinks_ok_iff.1 hlinks
  have hleave : (edges.filterMap (linkOf g.nodes g.positions)).filter (fun l => l.1 == v) =
      (edges.filter fun e => g.startOf e = g.idAt v).filterMap (linkOf g.nodes g.positions) := by
    rw [List.filter_filterMap, List.filterMap_filter]
    refine List.filterMap_congr fun e _ => ?_
    cases hl : linkOf g.nodes g.positions e with
    | none => simp
    | some l =>
      obtain ⟨u, w⟩ := l
      rw [h.startOf_of_link hl]
      by_cases huv : u = v
      · simp [huv]
      · simp [huv, mt h.ids_injective huv]
  rw [successorsAt, hadj, Adjacency.successors_ofLinks, Adjacency.targets, List.filter_append, List.map_append,
    IndexingAux.map_filter_branchLinks, hleave]
  rfl

end Indexes

section Perm

variable (h : Indexes catalog nodes edges g) (h' : Indexes catalog nodes' edges' g') {r : Fin g.size ≃ Fin g'.size}
  (hnode : ∀ v, g'.node (r v) = g.node v)

include h h' hnode

/-- An id finds the image of its node. -/
theorem find?_renumbered (id : String) : g'.find? id = (g.find? id).map r := by
  rw [find?, find?, h.positions_eq, h'.positions_eq]
  exact ReorderingAux.positionsOf_renumbered hnode h.distinct id

/-- The start by id is the same in both graphs. -/
theorem startOf_renumbered (edge : Flow.Edge) : g'.startOf edge = g.startOf edge := by
  have hnode? : g'.node? edge.source = g.node? edge.source := by
    rw [node?, node?, find?_renumbered h h' hnode, Option.map_map]
    exact congrArg (fun f => (g.find? edge.source).map f) (funext hnode)
  rw [startOf, startOf, hnode?]

/-- The successors of a node are the same when the edges that start at it stand in the same order. -/
theorem successors_renumbered {v : Fin g.size}
    (hstarts : edges.filter (fun e => g.startOf e = g.idAt v) = edges'.filter fun e => g.startOf e = g.idAt v) :
    g'.successorsAt (r v) = (g.successorsAt v).map r := by
  have hpositions : ∀ id, g'.positions[id]? = g.positions[id]?.map r := find?_renumbered h h' hnode
  have hlinks : ∀ e, ReorderingAux.linkOf g'.nodes g'.positions e =
      (ReorderingAux.linkOf g.nodes g.positions e).map (Prod.map r r) := by
    intro e
    rw [ReorderingAux.linkOf, ReorderingAux.linkOf, h.positions_eq, h'.positions_eq,
      ReorderingAux.edgeLink?_renumbered hnode h.distinct]
    cases edgeLink? g.nodes (positionsOf g.nodes) e <;> rfl
  have hid : g'.idAt (r v) = g.idAt v := congrArg Node.id (hnode v)
  rw [h'.successorsAt_eq, h.successorsAt_eq, hnode, hid, ← LinksAux.eraseDups_map r.injective, List.map_append]
  simp only [hpositions, hlinks, startOf_renumbered h h' hnode, ← hstarts]
  simp only [List.map_filterMap, Option.map_map]
  rfl

variable (hsuccessors : ∀ v, g'.successorsAt (r v) = (g.successorsAt v).map r)

include hsuccessors

omit hnode in
/-- The image of a node has the images of its predecessors, in some order. -/
theorem predecessors_renumbered (w : Fin g.size) : (g'.predecessorsAt (r w)).Perm ((g.predecessorsAt w).map r) := by
  refine (List.perm_ext_iff_of_nodup (h'.nodup_predecessorsAt (r w)) ((h.nodup_predecessorsAt w).map r.injective)).2 fun x => ?_
  obtain ⟨v, rfl⟩ := r.surjective x
  rw [h'.mem_predecessorsAt_iff, hsuccessors, List.mem_map_of_injective r.injective, List.mem_map_of_injective r.injective,
    h.mem_predecessorsAt_iff]

/-- A branch end is one in both graphs, as only the number of its predecessors counts. -/
theorem isBranchEnd_renumbered (id : String) : g'.isBranchEnd id = g.isBranchEnd id := by
  rw [isBranchEnd, isBranchEnd, inDegree, inDegree, predecessors, predecessors, List.length_map, List.length_map,
    find?_renumbered h h' hnode]
  cases g.find? id with
  | none => rfl
  | some w =>
    rw [Option.map_some, Option.elim_some, Option.elim_some, (predecessors_renumbered h h' hsuccessors w).length_eq,
      List.length_map]

omit hnode in
/-- The entry is the same. -/
theorem entry_renumbered {entry : Fin g.size} (hentry : g.entry = .ok entry) : g'.entry = .ok (r entry) := by
  have hmem : ∀ x, x ∈ g'.entryCandidates ↔ x ∈ [r entry] := by
    intro x
    obtain ⟨v, rfl⟩ := r.surjective x
    have hv : r v ∈ g'.entryCandidates ↔ g'.predecessorsAt (r v) = [] := by
      simp [entryCandidates, vertices]
    rw [hv, List.mem_singleton, r.injective.eq_iff, ← entry_ok hentry v]
    have hperm := predecessors_renumbered h h' hsuccessors v
    constructor
    · intro hnil
      rw [hnil] at hperm
      exact List.map_eq_nil_iff.1 (List.nil_perm.1 hperm)
    · intro hnil
      rw [hnil] at hperm
      exact List.perm_nil.1 hperm
  have hnodup : g'.entryCandidates.Nodup := (List.nodup_finRange g'.size).filter _
  have honly : g'.entryCandidates = [r entry] :=
    List.perm_singleton.1 ((List.perm_ext_iff_of_nodup hnodup (List.nodup_singleton _)).2 hmem)
  rw [Graph.entry, honly]

end Perm

/-- A flow whose nodes and edges are listed in another order has the same graph under other numbers, when merge nodes keep their
order and so do edges that start at the same node or branch. -/
theorem renumbers_of_perm (h : Indexes catalog nodes edges g) (h' : Indexes catalog nodes' edges' g')
    {r : Fin g.size ≃ Fin g'.size} (hnode : ∀ v, g'.node (r v) = g.node v)
    (hsuccessors : ∀ v, g'.successorsAt (r v) = (g.successorsAt v).map r)
    (hends : nodes.filter (fun n => g.isBranchEnd n.id) = nodes'.filter fun n => g.isBranchEnd n.id) :
    Renumbers g g' r := by
  refine renumbers_of_successors hsuccessors hnode ?_
  have hids : (nodes.map (·.id)).filter g.isBranchEnd = (nodes'.map (·.id)).filter g'.isBranchEnd := by
    rw [funext (isBranchEnd_renumbered h h' hnode hsuccessors), List.filter_map, List.filter_map]
    exact congrArg _ hends
  rw [← h.map_idAt_ends, ← h'.map_idAt_ends] at hids
  have hinjective : Function.Injective g'.idAt := fun _ _ => h'.ids_injective
  refine (List.map_injective_iff.2 hinjective) (hids.symm.trans ?_)
  rw [List.map_map]
  exact congrArg (fun f => List.map f _) (funext fun v => (congrArg Node.id (hnode v)).symm)

end FlowPlan.Graph
