import FlowPlan.Proofs.Graph.Indexing

/-!
# Edges and links

Statements about the links of the graphs that `Graph.build` makes. An edge is accepted when it has a start and enters no branch
(`EdgeStart`, `EdgeLink`), and what is computed of it is just that (`Indexes.edgeLink?_eq_ok_iff`). A conditional node leads to its
branches, in the order of the declaration, and to nothing else (`Indexes.successors_conditional`); nothing else leads to a branch
(`Indexes.predecessors_branch`).
-/

namespace FlowPlan.Graph

open IndexingAux

/-- Where an edge from a node starts, or that it only says again what the node declares. -/
inductive EdgeStart (g : Graph) (e : Flow.Edge) (source : Fin g.size) : Option (Fin g.size) → Prop
  /-- a conditional node is left by the branch that the edge names -/
  | byBranch {ids id start} : (g.node source).kind = .conditional ids → e.branch = some id → id ∈ ids → g.idAt start = id →
      EdgeStart g e source (some start)
  /-- a conditional node leads to its branches anyway -/
  | declared {ids} : (g.node source).kind = .conditional ids → e.branch = none → e.target ∈ ids → EdgeStart g e source none
  /-- any other node is left as it is, whatever branch the edge names -/
  | direct : (g.node source).isConditional = false → EdgeStart g e source (some source)

/-- The link that an edge adds to a graph, if it fits and adds one. -/
inductive EdgeLink (g : Graph) (e : Flow.Edge) : Option (Fin g.size × Fin g.size) → Prop
  | adds {source target start} : g.idAt source = e.source → g.idAt target = e.target → EdgeStart g e source (some start) →
      (g.node target).isBranch = false → EdgeLink g e (some (start, target))
  | repeats {source target} : g.idAt source = e.source → g.idAt target = e.target → EdgeStart g e source none →
      EdgeLink g e none

namespace Indexes

variable {catalog : NodeCatalog} {nodes : List Flow.Node} {edges : List Flow.Edge} {g : Graph}

/-! ## Starts of edges -/

/-- The branch that an edge names is where it starts. -/
theorem find?_branch (h : Indexes catalog nodes edges g) {v : Fin g.size} {ids : List String} {id : String}
    (hk : (g.node v).kind = .conditional ids) (hid : id ∈ ids) :
    ∃ w condition, g.find? id = some w ∧ (g.node w).kind = .branch (g.idAt v) condition := by
  obtain ⟨n, hn, hkind, hv⟩ := h.conditional_origin hk
  obtain ⟨rfl, -⟩ := Node.kindOf_conditional hkind
  obtain ⟨b, hb, rfl⟩ := List.mem_map.1 hid
  obtain ⟨w, hw⟩ := (h.branches hn hkind).2 b hb
  refine ⟨w, b.condition, h.find?_eq_some_iff.2 (idAt_of_branch hw), ?_⟩
  rw [hw, idAt_of_declared hv]
  rfl

/-- A branch belongs to a conditional node. -/
theorem exists_parent (h : Indexes catalog nodes edges g) {w : Fin g.size} {parent : String} {condition : Option String}
    (hk : (g.node w).kind = .branch parent condition) :
    ∃ v ids, g.idAt v = parent ∧ (g.node v).kind = .conditional ids ∧ g.idAt w ∈ ids := by
  obtain ⟨n, hn, ⟨ids, hkind⟩, rfl, b, hb, hw⟩ := h.branch_origin hk
  obtain ⟨v, kind, hkind', hv⟩ := h.declared hn
  obtain rfl : Kind.conditional ids = kind := Except.ok.inj (hkind.symm.trans hkind')
  refine ⟨v, ids, idAt_of_declared hv, by rw [hv]; rfl, ?_⟩
  rw [(Node.kindOf_conditional hkind).1, idAt_of_branch hw]
  exact List.mem_map_of_mem hb

/-- An edge starts at no conditional node. -/
theorem not_isConditional_of_edgeStart (h : Indexes catalog nodes edges g) {e : Flow.Edge} {source v : Fin g.size}
    (hs : EdgeStart g e source (some v)) : (g.node v).isConditional = false := by
  cases hs with
  | byBranch hk _ hid hv =>
    obtain ⟨w, condition, hw, hkind⟩ := h.find?_branch hk hid
    obtain rfl : w = v := h.ids_injective ((h.find?_eq_some_iff.1 hw).trans hv.symm)
    exact not_isConditional_of_branch hkind
  | direct hother => exact hother

/-- The computed start of an edge is one that it has. -/
theorem edgeStart_of_ok (h : Indexes catalog nodes edges g) {e : Flow.Edge} {source : Fin g.size}
    {start : Option (Fin g.size)} (he : edgeStart? g.nodes g.positions e source = .ok start) : EdgeStart g e source start := by
  unfold edgeStart? at he
  split at he
  · rename_i ids id hk hbranch
    split at he
    · rename_i hid
      obtain ⟨w, -, hw, -⟩ := h.find?_branch hk (List.contains_iff_mem.1 hid)
      rw [show g.positions[id]? = some w from hw] at he
      cases he
      exact .byBranch hk hbranch (List.contains_iff_mem.1 hid) (h.find?_eq_some_iff.1 hw)
    · cases he
  · rename_i ids hk hbranch
    split at he
    · rename_i hid
      cases he
      exact .declared hk hbranch (List.contains_iff_mem.1 hid)
    · cases he
  · rename_i hsome hnone
    cases he
    refine .direct (Bool.eq_false_iff.2 fun hc => ?_)
    obtain ⟨ids, hk⟩ := kind_of_isConditional hc
    cases hbranch : e.branch with
    | none => exact hnone ids hk hbranch
    | some id => exact hsome ids id hk hbranch

/-- The start that an edge has is computed. -/
theorem edgeStart?_of_edgeStart (h : Indexes catalog nodes edges g) {e : Flow.Edge} {source : Fin g.size}
    {start : Option (Fin g.size)} (hs : EdgeStart g e source start) : edgeStart? g.nodes g.positions e source = .ok start := by
  unfold edgeStart?
  cases hs with
  | @byBranch ids id start hk hbranch hid hstart =>
    rw [show (g.nodes.get source).kind = .conditional ids from hk, hbranch]
    simp only [List.contains_iff_mem.2 hid, if_true]
    rw [show g.positions[id]? = some start from h.find?_eq_some_iff.2 hstart, Option.getD_some]
  | @declared ids hk hbranch hid =>
    rw [show (g.nodes.get source).kind = .conditional ids from hk, hbranch]
    simp only [List.contains_iff_mem.2 hid, if_true]
  | direct hother =>
    split
    · rename_i hk _
      rw [isConditional_of_kind hk] at hother
      cases hother
    · rename_i hk _
      rw [isConditional_of_kind hk] at hother
      cases hother
    · rfl

/-- The computed start of an edge is the one that it has, and there is an error where it has none. -/
theorem edgeStart?_eq_ok_iff (h : Indexes catalog nodes edges g) {e : Flow.Edge} {source : Fin g.size}
    {start : Option (Fin g.size)} :
    edgeStart? g.nodes g.positions e source = .ok start ↔ EdgeStart g e source start :=
  ⟨h.edgeStart_of_ok, h.edgeStart?_of_edgeStart⟩

/-! ## Links of edges -/

/-- The computed link of an edge is one that it adds. -/
theorem edgeLink_of_ok (h : Indexes catalog nodes edges g) {e : Flow.Edge} {link : Option (Fin g.size × Fin g.size)}
    (he : edgeLink? g.nodes g.positions e = .ok link) : EdgeLink g e link := by
  unfold edgeLink? at he
  split at he
  case h_2 => cases he
  rename_i source hsource
  split at he
  case h_2 => cases he
  rename_i target htarget
  obtain ⟨start, hstart, he⟩ := bind_ok he
  have hstart := h.edgeStart_of_ok hstart
  have hs : g.idAt source = e.source := h.find?_eq_some_iff.1 hsource
  have ht : g.idAt target = e.target := h.find?_eq_some_iff.1 htarget
  cases start with
  | none =>
    cases he
    exact .repeats hs ht hstart
  | some start =>
    dsimp only at he
    split at he
    · rename_i parent condition hk
      split at he
      · -- the parent of a branch is conditional, and so it is not the start
        rename_i hid
        obtain ⟨u, ids, hu, hku, -⟩ := h.exists_parent hk
        obtain rfl : u = start := h.ids_injective (hu.trans hid.symm)
        have hother := h.not_isConditional_of_edgeStart hstart
        rw [isConditional_of_kind hku] at hother
        cases hother
      · cases he
    · rename_i hk
      cases he
      refine .adds hs ht hstart (Bool.eq_false_iff.2 fun hb => ?_)
      obtain ⟨parent, condition, hbranch⟩ := kind_of_isBranch hb
      exact hk parent condition hbranch

/-- The link that an edge adds is computed. -/
theorem edgeLink?_of_edgeLink (h : Indexes catalog nodes edges g) {e : Flow.Edge} {link : Option (Fin g.size × Fin g.size)}
    (hl : EdgeLink g e link) : edgeLink? g.nodes g.positions e = .ok link := by
  cases hl with
  | @adds source target start hs ht hstart hb =>
    rw [edgeLink?, show g.positions[e.source]? = some source from h.find?_eq_some_iff.2 hs,
      show g.positions[e.target]? = some target from h.find?_eq_some_iff.2 ht]
    simp only [h.edgeStart?_of_edgeStart hstart, bind, Except.bind]
    split
    · rename_i parent condition hk
      have hbranch : (g.node target).isBranch = true := by rw [Node.isBranch, node, hk]
      rw [hbranch] at hb
      cases hb
    · rfl
  | @repeats source target hs ht hstart =>
    rw [edgeLink?, show g.positions[e.source]? = some source from h.find?_eq_some_iff.2 hs,
      show g.positions[e.target]? = some target from h.find?_eq_some_iff.2 ht]
    simp only [h.edgeStart?_of_edgeStart hstart, bind, Except.bind]
    rfl

/-- What is accepted of an edge, and what it adds. -/
theorem edgeLink?_eq_ok_iff (h : Indexes catalog nodes edges g) {e : Flow.Edge} {link : Option (Fin g.size × Fin g.size)} :
    edgeLink? g.nodes g.positions e = .ok link ↔ EdgeLink g e link :=
  ⟨h.edgeLink_of_ok, h.edgeLink?_of_edgeLink⟩

/-- No link of an edge leaves a conditional node itself, and none enters a branch. -/
theorem link_of_edges (h : Indexes catalog nodes edges g) {links : List (Fin g.size × Fin g.size)}
    (hl : edgeLinks g.nodes g.positions edges = .ok links) {v w : Fin g.size} (hm : (v, w) ∈ links) :
    (g.node v).isConditional = false ∧ (g.node w).isBranch = false := by
  obtain ⟨edge, -, he⟩ := mem_edgeLinks hl (v, w) hm
  cases h.edgeLink_of_ok he with
  | adds _ _ hstart hb => exact ⟨h.not_isConditional_of_edgeStart hstart, hb⟩

/-! ## Successors and predecessors -/

/-- A conditional node leads to its branches, in the order of the declaration, and to nothing else. -/
theorem successors_conditional (h : Indexes catalog nodes edges g) {v : Fin g.size} {ids : List String}
    (hk : (g.node v).kind = .conditional ids) :
    ∃ n ∈ nodes, g.node v = .declared n (.conditional ids) ∧ ids = n.branches.map (·.id) ∧
      (n.branches.filter (·.condition.isNone)).length ≤ 1 ∧
      List.Forall₂ (fun w b => g.node w = .ofBranch n b) (g.successorsAt v) n.branches := by
  obtain ⟨n, hn, hkind, hv⟩ := h.conditional_origin hk
  obtain ⟨hids, hone⟩ := Node.kindOf_conditional hkind
  obtain ⟨hnd, hposition⟩ := h.branches hn hkind
  refine ⟨n, hn, hv, hids, hone, ?_⟩
  obtain ⟨links, hlinks, hadj⟩ := h.linked
  -- no edge adds a link that leaves a conditional node
  have hnone : links.filter (fun l => l.1 == v) = [] := by
    rw [List.filter_eq_nil_iff]
    rintro ⟨s, t⟩ hl hs
    have hsv : s = v := beq_iff_eq.1 hs
    have hother := (h.link_of_edges hlinks hl).1
    rw [hsv, isConditional_of_kind hk] at hother
    cases hother
  have hbranchIds : (g.node v).branchIds = n.branches.map (·.id) := by rw [hv, ← hids]; rfl
  have hfound : ∀ b ∈ n.branches, ∃ w, g.positions[b.id]? = some w ∧ g.node w = .ofBranch n b := by
    intro b hb
    obtain ⟨w, hw⟩ := hposition b hb
    exact ⟨w, h.find?_eq_some_iff.2 (idAt_of_branch hw), hw⟩
  have hmatch : ∀ bs, bs ⊆ n.branches → List.Forall₂ (fun w b => g.node w = .ofBranch n b)
      ((bs.map (·.id)).filterMap fun id => g.positions[id]?) bs := by
    intro bs hsub
    induction bs with
    | nil => exact List.Forall₂.nil
    | cons b rest ih =>
      obtain ⟨w, hpos, hw⟩ := hfound b (hsub (List.mem_cons_self ..))
      rw [List.map_cons, List.filterMap_cons_some hpos]
      exact (ih fun x hx => hsub (List.mem_cons_of_mem _ hx)).cons hw
  have hdistinct : ((n.branches.map (·.id)).filterMap fun id => g.positions[id]?).Nodup := by
    refine hnd.filterMap fun id id' w hw hw' => ?_
    exact (h.find?_eq_some_iff.1 hw).symm.trans (h.find?_eq_some_iff.1 hw')
  have hsucc : g.successorsAt v = (n.branches.map (·.id)).filterMap fun id => g.positions[id]? := by
    unfold successorsAt
    rw [hadj, Adjacency.successors_ofLinks, Adjacency.targets, List.filter_append, List.map_append, hnone, List.map_nil,
      List.append_nil, map_filter_branchLinks]
    change ((g.node v).branchIds.filterMap fun id => g.positions[id]?).eraseDups = _
    rw [hbranchIds, LinksAux.eraseDups_of_nodup hdistinct]
  rw [hsucc]
  exact hmatch n.branches (List.Subset.refl _)

/-- A link is the link of a conditional node to one of its branches or the link of an edge. -/
theorem mem_successorsAt (h : Indexes catalog nodes edges g) {v w : Fin g.size} :
    w ∈ g.successorsAt v ↔ (∃ ids, (g.node v).kind = .conditional ids ∧ g.idAt w ∈ ids) ∨
      ∃ links, edgeLinks g.nodes g.positions edges = .ok links ∧ (v, w) ∈ links := by
  obtain ⟨links, hlinks, hadj⟩ := h.linked
  have hbranch : (v, w) ∈ branchLinks g.nodes g.positions ↔ ∃ ids, (g.node v).kind = .conditional ids ∧ g.idAt w ∈ ids := by
    rw [branchLinks, List.mem_flatMap]
    constructor
    · rintro ⟨u, -, hu⟩
      obtain ⟨id, hid, hu⟩ := List.mem_filterMap.1 hu
      obtain ⟨t, ht, he⟩ := Option.map_eq_some_iff.1 hu
      cases he
      have hw : g.idAt w = id := h.find?_eq_some_iff.1 ht
      change id ∈ (g.node v).branchIds at hid
      unfold Node.branchIds at hid
      split at hid
      · rename_i ids hk
        exact ⟨ids, hk, hw ▸ hid⟩
      · simp at hid
    · rintro ⟨ids, hk, hw⟩
      refine ⟨v, List.mem_finRange v, List.mem_filterMap.2 ⟨g.idAt w, ?_, ?_⟩⟩
      · change g.idAt w ∈ (g.node v).branchIds
        rw [Node.branchIds, hk]
        exact hw
      · exact Option.map_eq_some_iff.2 ⟨w, h.find?_idAt w, rfl⟩
  unfold successorsAt
  rw [hadj, Adjacency.successors_ofLinks, Adjacency.mem_targets, List.mem_append, hbranch]
  constructor
  · rintro (hb | hl)
    · exact Or.inl hb
    · exact Or.inr ⟨links, hlinks, hl⟩
  · rintro (hb | ⟨links', hlinks', hl⟩)
    · exact Or.inl hb
    · rw [hlinks] at hlinks'
      cases hlinks'
      exact Or.inr hl

/-- A branch is a successor of its conditional node and of nothing else. -/
theorem predecessors_branch (h : Indexes catalog nodes edges g) {w : Fin g.size} {parent : String}
    {condition : Option String} (hk : (g.node w).kind = .branch parent condition) :
    ∃ v ids, g.idAt v = parent ∧ (g.node v).kind = .conditional ids ∧ g.predecessorsAt w = [v] := by
  obtain ⟨v, ids, hidv, hkv, hidw⟩ := h.exists_parent hk
  have hmem : v ∈ g.predecessorsAt w := h.mem_predecessorsAt_iff.2 (h.mem_successorsAt.2 (Or.inl ⟨ids, hkv, hidw⟩))
  have honly : ∀ u ∈ g.predecessorsAt w, u = v := by
    intro u hu
    rcases h.mem_successorsAt.1 (h.mem_predecessorsAt_iff.1 hu) with ⟨ids', hku, hid⟩ | ⟨links, hlinks, hl⟩
    · obtain ⟨w', condition', hw', hkw'⟩ := h.find?_branch hku hid
      rw [h.find?_idAt w] at hw'
      cases hw'
      rw [hk] at hkw'
      injection hkw' with hp
      exact h.ids_injective (hp.symm.trans hidv.symm)
    · have hb := (h.link_of_edges hlinks hl).2
      rw [Node.isBranch, hk] at hb
      cases hb
  refine ⟨v, ids, hidv, hkv, ?_⟩
  have hnd := h.nodup_predecessorsAt w
  cases hp : g.predecessorsAt w with
  | nil =>
    rw [hp] at hmem
    simp at hmem
  | cons a rest =>
    rw [hp] at hnd honly
    obtain rfl : a = v := honly a (List.mem_cons_self ..)
    cases rest with
    | nil => rfl
    | cons b _ =>
      obtain rfl : b = a := honly b (by simp)
      simp at hnd

/-- A branch has one predecessor, so it ends no branches. -/
theorem not_branch_of_ends (h : Indexes catalog nodes edges g) {v : Fin g.size} (hv : 1 < (g.predecessorsAt v).length) :
    (g.node v).isBranch = false := by
  cases hk : (g.node v).kind with
  | branch parent condition =>
    obtain ⟨u, -, -, -, hu⟩ := h.predecessors_branch hk
    rw [hu] at hv
    simp at hv
  | _ => rw [Node.isBranch, hk]

end Indexes

end FlowPlan.Graph
