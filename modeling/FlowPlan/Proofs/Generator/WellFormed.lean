import FlowPlan.Proofs.Generator.Growth
import FlowPlan.Proofs.Graph.Acceptance
import FlowPlan.Proofs.Graph.Waists
import FlowPlan.Proofs.Random.Dice
import Mathlib.Data.List.Flatten

/-!
# Random flows are well formed

The nodes and branches of a generated flow have distinct ids, and its edges fit them, so it makes a graph. Its links are those that
the growth of the flow tells (`Generator.Outline.mem_successorsAt_iff`): they lead on, every node but the start node is entered, and
every node but the end node is left. So the flow is without loops and runs from its start node to its end node
(`Generator.flow_runs_through`).
-/

namespace FlowPlan

open FlowPlan.Flow FlowPlan.Graph

/-- Well formed nodes and edges make a graph. -/
theorem Flow.WellFormed.exists_build {catalog : NodeCatalog} {nodes : List Flow.Node} {edges : List Flow.Edge}
    (h : Flow.WellFormed catalog nodes edges) : ∃ g, Graph.build catalog nodes edges = .ok g := by
  have hreg := registerNodes_eq_ok_iff.2 ⟨h.suits, h.distinct, rfl⟩
  have hbare : Indexes catalog nodes [] (IndexingAux.ofRegistered _ []) := IndexingAux.indexes_ofRegistered hreg rfl
  have hlinks := ReorderingAux.edgeLinks_ok_iff.2 ⟨fun e he => hbare.fits_iff.2 (h.fits e he), rfl⟩
  exact ⟨_, IndexingAux.build_eq_ok_iff.2 ⟨h.nodes_ne, h.edges_ne, _, _, hreg, hlinks, rfl⟩⟩

/-- A graph has a position for each id that is taken. -/
theorem Graph.Indexes.length_takenIds {catalog : NodeCatalog} {nodes : List Flow.Node} {edges : List Flow.Edge} {g : Graph}
    (h : Indexes catalog nodes edges g) : (takenIds catalog nodes).length = g.size := by
  rw [← map_id_flatMap_groupOf, ← h.toList_nodes]
  simp

/-- The ids of a graph in order are those that the nodes of its flow take. -/
theorem Graph.Indexes.idxOf_idAt {catalog : NodeCatalog} {nodes : List Flow.Node} {edges : List Flow.Edge} {g : Graph}
    (h : Indexes catalog nodes edges g) (v : Fin g.size) : (takenIds catalog nodes).idxOf (g.idAt v) = v.val := by
  have hids : takenIds catalog nodes = g.nodes.toList.map (·.id) := by rw [h.toList_nodes, map_id_flatMap_groupOf]
  have hlength : v.val < (g.nodes.toList.map (·.id)).length := by simp
  have hat : (g.nodes.toList.map (·.id))[v.val] = g.idAt v := by
    simp only [List.getElem_map, Vector.getElem_toList]
    rfl
  rw [hids, ← hat, h.distinct.idxOf_getElem]

namespace Generator

/-! ## Nodes and their ids -/

namespace Made

variable {n : Flow.Node}

/-- The standard components have a conditional one for choices. -/
theorem shape_choice (h : n.component = "choice") : NodeCatalog.standard.shapeOf? n.component = some .conditional := by
  rw [h]
  decide

/-- A made node is conditional just when it has branches. -/
theorem shape_iff (h : Made n) : NodeCatalog.standard.shapeOf? n.component = some .conditional ↔ n.branches ≠ [] := by
  cases h with
  | plain hshape hbranches => simp [hshape, hbranches]
  | choice hcomponent hcount hbranches =>
    refine iff_of_true (shape_choice hcomponent) ?_
    rw [hbranches, Ne, List.map_eq_nil_iff, List.range_eq_nil]
    omega

/-- The component of a node is known. -/
theorem kindIn_ne (h : Made n) : Node.kindIn .standard n ≠ .unrecognized := by
  cases h with
  | plain hshape _ => simp [Node.kindIn, hshape]
  | choice hcomponent _ _ => simp [Node.kindIn, shape_choice hcomponent]

/-- All branches of a made node are its own: a plain one has none. -/
theorem ownBranches_eq (h : Made n) : n.ownBranches .standard = n.branches := by
  unfold Node.ownBranches
  split
  · rfl
  · rename_i hshape
    exact (not_not.1 (mt h.shape_iff.2 hshape)).symm

/-- At most the last branch is the "otherwise" branch. -/
theorem suits (h : Made n) : n.Suits .standard := by
  cases h with
  | plain hshape hbranches => exact ⟨fun _ => hbranches, fun hs => by simp [hshape] at hs⟩
  | @choice count withOtherwise hcomponent hcount hbranches =>
    refine ⟨fun hs => ?_, fun _ => ?_⟩
    · rw [hcomponent] at hs
      exact absurd hs (by decide)
    · have hlast : ∀ i, (branchAt n.id count withOtherwise i).condition.isNone = true → i = count - 1 := by
        intro i hi
        simp only [branchAt] at hi
        split at hi
        · rename_i hcond
          simp only [Bool.and_eq_true, decide_eq_true_eq] at hcond
          omega
        · cases hi
      rw [hbranches, List.filter_map, List.length_map]
      have hsub : (List.range count).filter ((fun b : Branch => b.condition.isNone) ∘ branchAt n.id count withOtherwise) ⊆
          [count - 1] := by
        intro i hi
        exact List.mem_singleton.2 (hlast i (List.mem_filter.1 hi).2)
      have hnodup := (List.nodup_range (n := count)).filter
        ((fun b : Branch => b.condition.isNone) ∘ branchAt n.id count withOtherwise)
      exact (hnodup.subperm hsub).length_le

/-- A choice has two branches at least. -/
theorem two_le_branches (h : Made n) (hne : n.branches ≠ []) : 2 ≤ n.branches.length := by
  cases h with
  | plain _ hbranches => exact absurd hbranches hne
  | choice _ hcount hbranches => simpa [hbranches] using hcount

/-- The id of a branch tells its node. -/
theorem exists_branchAt (h : Made n) {b : Branch} (hb : b ∈ n.branches) :
    ∃ count withOtherwise index, b = branchAt n.id count withOtherwise index := by
  cases h with
  | plain _ hbranches =>
    rw [hbranches] at hb
    cases hb
  | @choice count withOtherwise _ _ hbranches =>
    rw [hbranches] at hb
    obtain ⟨i, -, rfl⟩ := List.mem_map.1 hb
    exact ⟨count, withOtherwise, i, rfl⟩

/-- Branches of one node have different indices, and so different ids. -/
theorem nodup_branches (h : Made n) : (n.branches.map (·.id)).Nodup := by
  cases h with
  | plain _ hbranches => simp [hbranches]
  | @choice count withOtherwise _ _ hbranches =>
    rw [hbranches, List.map_map]
    exact List.nodup_range.map fun i j hij => (branchAt_inj hij).2

end Made

/-- The ids of a node and of its branches. -/
theorem takenIds_of_made {nodes : List Flow.Node} (h : ∀ n ∈ nodes, Made n) :
    takenIds .standard nodes = nodes.flatMap fun n => n.id :: n.branches.map (·.id) :=
  List.flatMap_congr fun n hn => by rw [(h n hn).ownBranches_eq]

namespace Numbered

variable {k : Nat} {nodes : List Flow.Node}

/-- The id of a numbered node is that of a number. -/
theorem exists_idOf (h : Numbered k nodes) {n : Flow.Node} (hn : n ∈ nodes) : ∃ number, n.id = idOf number := by
  have hid : n.id ∈ nodes.map (·.id) := List.mem_map_of_mem hn
  rw [h.ids] at hid
  obtain ⟨number, -, heq⟩ := List.mem_map.1 hid
  exact ⟨number, heq.symm⟩

/-- Numbered nodes have different ids. -/
theorem nodup_ids (h : Numbered k nodes) : (nodes.map (·.id)).Nodup := by
  rw [h.ids]
  exact (List.nodup_range' ..).map fun i j hij => idOf_inj hij

/-- A numbered node is told by its id. -/
theorem eq_of_id (h : Numbered k nodes) {n m : Flow.Node} (hn : n ∈ nodes) (hm : m ∈ nodes) (hid : n.id = m.id) : n = m :=
  List.inj_on_of_nodup_map h.nodup_ids hn hm hid

/-- The id of a node is not the one of a branch. -/
theorem branch_ne (h : Numbered k nodes) {n m : Flow.Node} (hn : n ∈ nodes) (hm : m ∈ nodes) {b : Branch} (hb : b ∈ m.branches) :
    b.id ≠ n.id := by
  obtain ⟨number, hid⟩ := h.exists_idOf hn
  obtain ⟨count, withOtherwise, index, rfl⟩ := (h.made m hm).exists_branchAt hb
  rw [hid]
  exact branchAt_ne_idOf

/-- Nodes and branches have distinct ids. -/
theorem nodup_takenIds (h : Numbered k nodes) : (takenIds .standard nodes).Nodup := by
  rw [takenIds_of_made h.made, List.nodup_flatMap]
  refine ⟨fun n hn => List.nodup_cons.2 ⟨fun hmem => ?_, (h.made n hn).nodup_branches⟩, ?_⟩
  · obtain ⟨b, hb, hid⟩ := List.mem_map.1 hmem
    exact h.branch_ne hn hn hb hid
  · refine (List.pairwise_map.1 h.nodup_ids).imp_of_mem fun {n m} hn hm hne id hid hid' => ?_
    rcases List.mem_cons.1 hid with rfl | hid
    · rcases List.mem_cons.1 hid' with heq | hid'
      · exact hne heq
      · obtain ⟨b, hb, heq⟩ := List.mem_map.1 hid'
        exact h.branch_ne hn hm hb heq
    · obtain ⟨b, hb, rfl⟩ := List.mem_map.1 hid
      rcases List.mem_cons.1 hid' with heq | hid'
      · exact h.branch_ne hm hn hb heq
      · obtain ⟨b', hb', heq⟩ := List.mem_map.1 hid'
        obtain ⟨_, _, _, rfl⟩ := (h.made n hn).exists_branchAt hb
        obtain ⟨_, _, _, rfl⟩ := (h.made m hm).exists_branchAt hb'
        exact hne (branchAt_inj heq).1.symm

/-- No two exits have the same id. -/
theorem nodup_exits (h : Numbered k nodes) : ((nodes.flatMap Node.exits).map Exit.id).Nodup := by
  rw [List.map_flatMap]
  refine h.nodup_takenIds.sublist ?_
  rw [takenIds_of_made h.made]
  exact List.Sublist.flatMap_right nodes fun n _ => n.exits_ids_sublist

/-- No numbered node has the id of a branch. -/
theorem not_isBranchId (h : Numbered k nodes) {n : Flow.Node} (hn : n ∈ nodes) : ¬ IsBranchId .standard nodes n.id := by
  rintro ⟨m, hm, b, hb, hid⟩
  rw [(h.made m hm).ownBranches_eq] at hb
  exact h.branch_ne hn hm hb hid

/-- The ids that are taken are those of the nodes and of all branches. -/
theorem mem_takenIds (h : Numbered k nodes) {id : String} :
    id ∈ takenIds .standard nodes ↔ ∃ n ∈ nodes, id = n.id ∨ ∃ b ∈ n.branches, id = b.id := by
  rw [takenIds_of_made h.made, List.mem_flatMap]
  simp only [List.mem_cons, List.mem_map, eq_comm (a := id)]

/-- An edge from an exit of a node to another node fits. -/
theorem fits (h : Numbered k nodes) {e : Flow.Edge} {n m : Flow.Node} (hn : n ∈ nodes) (hexit : e.exit ∈ n.exits) (hm : m ∈ nodes)
    (htarget : e.target = m.id) : e.Fits .standard nodes := by
  obtain ⟨hsource, hbranch⟩ := Node.mem_exits hexit
  change e.source = n.id at hsource
  have hnot : ¬ IsBranchId .standard nodes e.target := htarget ▸ h.not_isBranchId hm
  refine ⟨h.mem_takenIds.2 ⟨n, hn, Or.inl hsource⟩, h.mem_takenIds.2 ⟨m, hm, Or.inl htarget⟩, fun u hu hshape hid => ?_,
    fun _ => hnot⟩
  obtain rfl := h.eq_of_id hu hn (hid.trans hsource)
  rcases hbranch with ⟨hplain, -⟩ | ⟨b, hb, hbranch⟩
  · exact absurd hplain ((h.made u hu).shape_iff.1 hshape)
  · exact Or.inl ⟨⟨b, hb, hbranch⟩, hnot⟩

end Numbered

/-! ## Links -/

/-- The links of a flow by ids: from a node to its branches, and from the exit of an edge to its target. -/
def linksOf (nodes : List Flow.Node) (edges : List Flow.Edge) : List (String × String) :=
  (nodes.flatMap fun n => n.branches.map fun b => (n.id, b.id)) ++ edges.map fun e => (e.exit.id, e.target)

/-- A link leads to a branch from its node, or to the target of an edge from its exit. -/
theorem mem_linksOf {nodes : List Flow.Node} {edges : List Flow.Edge} {a b : String} : (a, b) ∈ linksOf nodes edges ↔
    (∃ n ∈ nodes, ∃ branch ∈ n.branches, n.id = a ∧ branch.id = b) ∨ ∃ e ∈ edges, e.exit.id = a ∧ e.target = b := by
  simp [linksOf]

/-- A plain node has no links of its own. -/
theorem linksOf_cons {n : Flow.Node} (hn : n.branches = []) (nodes : List Flow.Node) (edges : List Flow.Edge) :
    linksOf (n :: nodes) edges = linksOf nodes edges := by
  rw [linksOf, List.flatMap_cons, hn]
  rfl

/-- The links of two parts are those of either one. -/
theorem linksOf_append (nodes nodes' : List Flow.Node) (edges edges' : List Flow.Edge) (l : String × String) :
    l ∈ linksOf (nodes ++ nodes') (edges ++ edges') ↔ l ∈ linksOf nodes edges ∨ l ∈ linksOf nodes' edges' := by
  simp only [linksOf, List.flatMap_append, List.map_append, List.mem_append]
  tauto

section Links

variable {k : Nat} {nodes : List Flow.Node} {edges : List Flow.Edge} {g : Graph}

/-- The link of an edge leaves by its exit. -/
theorem Numbered.edgeLink (h : Numbered k nodes) (hg : Indexes .standard nodes edges g) {e : Flow.Edge} {n : Flow.Node}
    (hn : n ∈ nodes) (hexit : e.exit ∈ n.exits) {link : Option (Fin g.size × Fin g.size)} (hlink : EdgeLink g e link) :
    ∃ u v, link = some (u, v) ∧ g.idAt u = e.exit.id ∧ g.idAt v = e.target := by
  obtain ⟨hsource, hbranch⟩ := Node.mem_exits hexit
  change e.source = n.id at hsource
  have conditional : ∀ {source : Fin g.size}, g.idAt source = e.source → n.branches ≠ [] →
      (g.node source).kind = .conditional (n.branches.map (·.id)) := fun hs hne =>
    hg.kind_of_conditional_at hn ((h.made n hn).shape_iff.2 hne) (hsource.symm.trans hs.symm)
  have plain : ∀ {source : Fin g.size} {ids}, g.idAt source = e.source → (g.node source).kind = .conditional ids →
      n.branches ≠ [] := by
    intro source ids hs hk
    obtain ⟨m, hm, hshape, hid, -⟩ := hg.exists_conditional hk
    obtain rfl := h.eq_of_id hm hn (hid.trans (hs.trans hsource))
    exact (h.made m hm).shape_iff.1 hshape
  cases hlink with
  | @adds source target start hs ht hstart _ =>
    refine ⟨start, target, rfl, ?_, ht⟩
    cases hstart with
    | byBranch _ he _ hstart => rw [hstart, Exit.id, Edge.exit, he, Option.getD_some]
    | direct hother =>
      rcases hbranch with ⟨-, hnone⟩ | ⟨b, hb, -⟩
      · rw [Exit.id, hnone]
        exact hs
      · rw [isConditional_of_kind (conditional hs (List.ne_nil_of_mem hb))] at hother
        cases hother
  | @repeats source target hs ht hstart =>
    cases hstart with
    | declared hk hnone _ =>
      rcases hbranch with ⟨hplain, -⟩ | ⟨b, hb, hsome⟩
      · exact absurd hplain (plain hs hk)
      · cases hnone.symm.trans hsome

/-- The links of the graph are those of the flow. -/
theorem Numbered.mem_successorsAt_iff (h : Numbered k nodes) (hg : Indexes .standard nodes edges g)
    (hexits : ∀ e ∈ edges, ∃ n ∈ nodes, e.exit ∈ n.exits) {v w : Fin g.size} :
    w ∈ g.successorsAt v ↔ (g.idAt v, g.idAt w) ∈ linksOf nodes edges := by
  rw [hg.mem_successorsAt, mem_linksOf]
  obtain ⟨links, hlinks, -⟩ := hg.linked
  refine or_congr ⟨?_, ?_⟩ ⟨?_, ?_⟩
  · rintro ⟨ids, hk, hw⟩
    obtain ⟨n, hn, -, hid, rfl⟩ := hg.exists_conditional hk
    obtain ⟨b, hb, hid'⟩ := List.mem_map.1 hw
    exact ⟨n, hn, b, hb, hid, hid'⟩
  · rintro ⟨n, hn, b, hb, hid, hid'⟩
    have hshape := (h.made n hn).shape_iff.2 (List.ne_nil_of_mem hb)
    exact ⟨_, hg.kind_of_conditional_at hn hshape hid, hid' ▸ List.mem_map_of_mem hb⟩
  · rintro ⟨links', hlinks', hl⟩
    obtain ⟨e, he, hlink⟩ := IndexingAux.mem_edgeLinks hlinks' _ hl
    obtain ⟨n, hn, hexit⟩ := hexits e he
    obtain ⟨u, u', heq, hu, hu'⟩ := h.edgeLink hg hn hexit (hg.edgeLink?_eq_ok_iff.1 hlink)
    cases heq
    exact ⟨e, he, hu.symm, hu'.symm⟩
  · rintro ⟨e, he, hid, hid'⟩
    obtain ⟨haccepted, rfl⟩ := ReorderingAux.edgeLinks_ok_iff.1 hlinks
    obtain ⟨link, hlink⟩ := haccepted e he
    obtain ⟨n, hn, hexit⟩ := hexits e he
    obtain ⟨u, u', rfl, hu, hu'⟩ := h.edgeLink hg hn hexit (hg.edgeLink?_eq_ok_iff.1 hlink)
    obtain rfl := hg.ids_injective (hu.trans hid)
    obtain rfl := hg.ids_injective (hu'.trans hid')
    refine ⟨_, hlinks, List.mem_filterMap.2 ⟨e, he, ?_⟩⟩
    rw [ReorderingAux.linkOf, hlink]
    rfl

end Links

/-! ## Ranks -/

/-- In a list without repetition the places of its members rise. -/
theorem pairwise_idxOf {l : List String} (h : l.Nodup) : l.Pairwise fun a b => l.idxOf a < l.idxOf b := by
  rw [List.pairwise_iff_getElem]
  intro i j hi hj hij
  rwa [h.idxOf_getElem, h.idxOf_getElem]

/-- A link of a growth leads from a node to a branch of it, or on to a node from its tail or from an earlier node or branch. -/
theorem link_cases {tail : String} {nodes : List Flow.Node} {edges : List Flow.Edge} {tips forks : List Exit} {meets : List String}
    (h : Growth [⟨tail, none⟩] nodes edges tips forks meets) {l : String × String} (hl : l ∈ linksOf nodes edges) :
    (∃ n ∈ nodes, l.1 = n.id ∧ l.2 ∈ n.branches.map (·.id)) ∨
      ∃ front n back, nodes = front ++ n :: back ∧ l.2 = n.id ∧ (l.1 = tail ∨ ∃ m ∈ front, l.1 ∈ m.id :: m.branches.map (·.id)) := by
  obtain ⟨a, b⟩ := l
  rcases mem_linksOf.1 hl with ⟨n, hn, branch, hbranch, rfl, rfl⟩ | ⟨e, he, rfl, rfl⟩
  · exact Or.inl ⟨n, hn, rfl, List.mem_map_of_mem hbranch⟩
  · obtain ⟨front, n, back, hsplit, htarget, hexit⟩ := h.onward e he
    refine Or.inr ⟨front, n, back, hsplit, htarget, ?_⟩
    rcases List.mem_append.1 hexit with hroot | hfront
    · exact Or.inl (congrArg Exit.id (List.mem_singleton.1 hroot))
    · obtain ⟨m, hm, hx⟩ := List.mem_flatMap.1 hfront
      exact Or.inr ⟨m, hm, Node.id_mem_of_mem_exits hx⟩

/-- The links of a growth lead on, in every ranking of ids that rises along its nodes. -/
theorem rank_lt_of_growth {rank : String → Nat} {tail : String} {nodes : List Flow.Node} {edges : List Flow.Edge}
    {tips forks : List Exit} {meets : List String} (h : Growth [⟨tail, none⟩] nodes edges tips forks meets)
    (hmade : ∀ n ∈ nodes, Made n) (hrank : (tail :: takenIds .standard nodes).Pairwise fun a b => rank a < rank b)
    {l : String × String} (hl : l ∈ linksOf nodes edges) : rank l.1 < rank l.2 := by
  rw [takenIds_of_made hmade, List.pairwise_cons, List.pairwise_flatMap] at hrank
  obtain ⟨htail, hgroups, hnodes⟩ := hrank
  rcases link_cases h hl with ⟨n, hn, hsource, htarget⟩ | ⟨front, n, back, rfl, htarget, hsource | ⟨m, hm, hsource⟩⟩
  · rw [hsource]
    exact (List.pairwise_cons.1 (hgroups n hn)).1 _ htarget
  · rw [hsource, htarget]
    exact htail _ (List.mem_flatMap.2 ⟨n, by simp, List.mem_cons_self ..⟩)
  · rw [htarget]
    exact (List.pairwise_append.1 hnodes).2.2 m hm n (List.mem_cons_self ..) _ hsource _ (List.mem_cons_self ..)

namespace Outline

variable {k depth count : Nat} {f : Flow} {start finish : Flow.Node}

theorem start_mem (h : Outline k depth count f start finish) : start ∈ f.nodes := by
  obtain ⟨later, forks, meets, hnodes, -⟩ := h.growth
  simp [hnodes]

theorem finish_mem (h : Outline k depth count f start finish) : finish ∈ f.nodes := by
  obtain ⟨later, forks, meets, hnodes, -⟩ := h.growth
  simp [hnodes]

/-- An edge leads from an exit of a node to a node. -/
theorem exists_ends (h : Outline k depth count f start finish) {e : Flow.Edge} (he : e ∈ f.edges) :
    (∃ n ∈ f.nodes, e.exit ∈ n.exits) ∧ ∃ n ∈ f.nodes, e.target = n.id := by
  obtain ⟨later, forks, meets, hnodes, hgrowth⟩ := h.growth
  obtain ⟨front, n, back, hsplit, htarget, hexit⟩ := hgrowth.onward e he
  refine ⟨?_, n, by simp [hnodes, hsplit], htarget⟩
  rcases List.mem_append.1 hexit with hroot | hfront
  · refine ⟨start, h.start_mem, ?_⟩
    rwa [Node.exits_of_plain h.start_branches]
  · obtain ⟨m, hm, hx⟩ := List.mem_flatMap.1 hfront
    exact ⟨m, by simp [hnodes, hsplit, hm], hx⟩

/-- A flow in stages is one that a graph can be built of. -/
theorem wellFormed (h : Outline k depth count f start finish) : WellFormed .standard f.nodes f.edges where
  nodes_ne := List.ne_nil_of_mem h.start_mem
  edges_ne := by
    obtain ⟨last, nodes, edges, -, -, hedges⟩ := h.row
    simp [hedges]
  suits := fun n hn => (h.numbered.made n hn).suits
  distinct := h.numbered.nodup_takenIds
  fits := by
    intro e he
    obtain ⟨⟨n, hn, hexit⟩, m, hm, htarget⟩ := h.exists_ends he
    exact h.numbered.fits hn hexit hm htarget

/-- Every node but the start node, and every branch, is linked to. -/
theorem exists_link_to (h : Outline k depth count f start finish) {id : String} (hid : id ∈ takenIds .standard f.nodes)
    (hne : id ≠ start.id) : ∃ a ∈ takenIds .standard f.nodes, (a, id) ∈ linksOf f.nodes f.edges := by
  obtain ⟨later, forks, meets, hnodes, hgrowth⟩ := h.growth
  obtain ⟨n, hn, rfl | ⟨b, hb, rfl⟩⟩ := h.numbered.mem_takenIds.1 hid
  · have hlater : n ∈ later ++ [finish] := by
      rw [hnodes] at hn
      rcases List.mem_cons.1 hn with rfl | hn
      · exact absurd rfl hne
      · exact hn
    obtain ⟨e, he, htarget⟩ := hgrowth.exists_enters hlater
    obtain ⟨m, hm, hexit⟩ := (h.exists_ends he).1
    refine ⟨e.exit.id, h.numbered.mem_takenIds.2 ⟨m, hm, ?_⟩, mem_linksOf.2 (Or.inr ⟨e, he, rfl, htarget⟩)⟩
    simpa [eq_comm] using Node.id_mem_of_mem_exits hexit
  · exact ⟨n.id, h.numbered.mem_takenIds.2 ⟨n, hn, Or.inl rfl⟩, mem_linksOf.2 (Or.inl ⟨n, hn, b, hb, rfl, rfl⟩)⟩

/-- From every node but the end node, and from every branch, a link leads on. -/
theorem exists_link_from (h : Outline k depth count f start finish) {id : String} (hid : id ∈ takenIds .standard f.nodes)
    (hne : id ≠ finish.id) : ∃ b ∈ takenIds .standard f.nodes, (id, b) ∈ linksOf f.nodes f.edges := by
  obtain ⟨later, forks, meets, hnodes, hgrowth⟩ := h.growth
  have hexits : f.nodes.flatMap Node.exits = [⟨start.id, none⟩] ++ (later ++ [finish]).flatMap Node.exits := by
    rw [hnodes, List.flatMap_cons, Node.exits_of_plain h.start_branches]
  -- an exit that is not the end node is left by an edge
  have left : ∀ n ∈ f.nodes, ∀ x ∈ n.exits, x.id = id → ∃ b ∈ takenIds .standard f.nodes, (id, b) ∈ linksOf f.nodes f.edges := by
    rintro n hn x hx rfl
    rcases hgrowth.mem_leaves (hexits ▸ List.mem_flatMap.2 ⟨n, hn, hx⟩) with ⟨e, he, rfl⟩ | htip
    · obtain ⟨-, m, hm, htarget⟩ := h.exists_ends he
      exact ⟨e.target, h.numbered.mem_takenIds.2 ⟨m, hm, Or.inl htarget⟩, mem_linksOf.2 (Or.inr ⟨e, he, rfl, rfl⟩)⟩
    · rw [List.mem_singleton.1 htip] at hne
      exact absurd rfl hne
  obtain ⟨n, hn, rfl | ⟨b, hb, rfl⟩⟩ := h.numbered.mem_takenIds.1 hid
  · by_cases hplain : n.branches = []
    · exact left n hn ⟨n.id, none⟩ (by simp [Node.exits_of_plain hplain]) rfl
    · obtain ⟨b, hb⟩ := List.exists_mem_of_ne_nil _ hplain
      exact ⟨b.id, h.numbered.mem_takenIds.2 ⟨n, hn, Or.inr ⟨b, hb, rfl⟩⟩, mem_linksOf.2 (Or.inl ⟨n, hn, b, hb, rfl, rfl⟩)⟩
  · refine left n hn ⟨n.id, some b.id⟩ ?_ rfl
    rw [Node.exits_of_branches (List.ne_nil_of_mem hb)]
    exact List.mem_map.2 ⟨b, hb, rfl⟩

/-- The start node has no branches. -/
theorem takenIds_eq (h : Outline k depth count f start finish) {later : List Flow.Node} (hnodes : f.nodes = start :: later) :
    takenIds .standard f.nodes = start.id :: takenIds .standard later := by
  rw [takenIds_of_made h.numbered.made, hnodes, takenIds_of_made fun n hn => h.numbered.made n (hnodes ▸ List.mem_cons_of_mem _ hn),
    List.flatMap_cons, h.start_branches]
  rfl

/-- Links lead on in the order of the nodes. -/
theorem idxOf_lt_of_link (h : Outline k depth count f start finish) {l : String × String} (hl : l ∈ linksOf f.nodes f.edges) :
    (takenIds .standard f.nodes).idxOf l.1 < (takenIds .standard f.nodes).idxOf l.2 := by
  obtain ⟨later, forks, meets, hnodes, hgrowth⟩ := h.growth
  have hmade : ∀ n ∈ later ++ [finish], Made n := fun n hn => h.numbered.made n (hnodes ▸ List.mem_cons_of_mem _ hn)
  have hrank := pairwise_idxOf h.numbered.nodup_takenIds
  rw [hnodes, linksOf_cons h.start_branches] at hl
  rw [h.takenIds_eq hnodes] at hrank ⊢
  exact rank_lt_of_growth hgrowth hmade hrank hl

section Indexed

variable (h : Outline k depth count f start finish) {g : Graph} (hg : Indexes .standard f.nodes f.edges g)

include h hg

/-- Links between nodes of the graph are the links of the flow by ids. -/
theorem mem_successorsAt_iff {v w : Fin g.size} : w ∈ g.successorsAt v ↔ (g.idAt v, g.idAt w) ∈ linksOf f.nodes f.edges :=
  h.numbered.mem_successorsAt_iff hg fun _ he => (h.exists_ends he).1

/-- The start node stands first and the end node last. -/
theorem exists_first_last : ∃ first last : Fin g.size, g.idAt first = start.id ∧ g.idAt last = finish.id ∧ first.val = 0 ∧
    last.val + 1 = g.size := by
  obtain ⟨later, forks, meets, hnodes, -⟩ := h.growth
  obtain ⟨first, hfirst⟩ := hg.mem_takenIds_iff.1 (h.numbered.mem_takenIds.2 ⟨start, h.start_mem, Or.inl rfl⟩)
  obtain ⟨last, hlast⟩ := hg.mem_takenIds_iff.1 (h.numbered.mem_takenIds.2 ⟨finish, h.finish_mem, Or.inl rfl⟩)
  have hnodup := h.numbered.nodup_takenIds
  obtain ⟨ids, hids⟩ : ∃ ids, takenIds .standard f.nodes = (start.id :: ids) ++ [finish.id] := by
    rw [takenIds_of_made h.numbered.made, hnodes]
    simp [h.start_branches, h.finish_branches]
  refine ⟨first, last, hfirst, hlast, ?_, ?_⟩
  · rw [← hg.idxOf_idAt, hfirst, hids, List.cons_append, List.idxOf_cons_self]
  · rw [hids] at hnodup
    have hnot : finish.id ∉ start.id :: ids := fun hm => List.disjoint_of_nodup_append hnodup hm (List.mem_singleton_self _)
    rw [← hg.idxOf_idAt, hlast, ← hg.length_takenIds, hids, List.idxOf_append_of_notMem hnot, List.length_append, List.idxOf_cons_self]
    rfl

/-- The graph leads on from the start node to the end node. -/
theorem upward : g.Upward := by
  obtain ⟨first, last, hfirst, hlast, hzero, hsize⟩ := h.exists_first_last hg
  have hmem : ∀ v, g.idAt v ∈ takenIds .standard f.nodes := fun v => hg.mem_takenIds_iff.2 ⟨v, rfl⟩
  refine ⟨fun v w hw => ?_, fun v hv => ?_, fun v hv => ?_⟩
  · have hlt := h.idxOf_lt_of_link ((h.mem_successorsAt_iff hg).1 hw)
    rwa [hg.idxOf_idAt, hg.idxOf_idAt] at hlt
  · obtain ⟨a, ha, hlink⟩ := h.exists_link_to (hmem v) fun heq => by
      obtain rfl := hg.ids_injective (heq.trans hfirst.symm)
      omega
    obtain ⟨u, rfl⟩ := hg.mem_takenIds_iff.1 ha
    exact List.ne_nil_of_mem (hg.mem_predecessorsAt_iff.2 ((h.mem_successorsAt_iff hg).2 hlink))
  · obtain ⟨b, hb, hlink⟩ := h.exists_link_from (hmem v) fun heq => by
      obtain rfl := hg.ids_injective (heq.trans hlast.symm)
      omega
    obtain ⟨w, rfl⟩ := hg.mem_takenIds_iff.1 hb
    exact List.ne_nil_of_mem ((h.mem_successorsAt_iff hg).2 hlink)

end Indexed

end Outline

end Generator

/-! ## From the start node to the end node -/

/-- A flow makes a graph without loops that runs from its first node, the start node, to its last one, the end node: nothing else is
without a way in or without a way out, and every node and branch is on a path between the two. -/
structure Flow.RunsThrough (f : Flow) (start finish : Flow.Node) (g : Graph) : Prop where
  build : Graph.build .standard f.nodes f.edges = .ok g
  acyclic : g.Acyclic
  head : f.nodes.head? = some start ∧ start.component = "start"
  last : f.nodes.getLast? = some finish ∧ finish.component = "end"
  entry : g.entry.map g.idAt = .ok start.id
  predecessors : ∀ id ∈ takenIds .standard f.nodes, g.predecessors id = [] ↔ id = start.id
  successors : ∀ id ∈ takenIds .standard f.nodes, g.successors id = [] ↔ id = finish.id
  path : ∀ id ∈ takenIds .standard f.nodes, ∃ p, g.Path start.id finish.id p ∧ id ∈ p

/-- With fair dice and two branches or more for each structure a generator makes a flow that runs from its start node to its end
node, whatever the dice decide, with every depth and number of stages. -/
theorem Generator.flow_runs_through {σ : Type} {dice : Random.Dice σ} (hd : dice.Fair) {width : Nat} (hw : 2 ≤ width) (id : String)
    (depth count : Nat) (state : σ) (counter : Nat) :
    ∃ start finish g, (flowFrom dice width id depth count state counter).RunsThrough start finish g := by
  obtain ⟨start, finish, h⟩ := outline_flowFrom hd hw id depth count state counter
  obtain ⟨g, hbuild⟩ := h.wellFormed.exists_build
  have hg := indexes_of_build hbuild
  have hupward := h.upward hg
  obtain ⟨first, last, hfirst, hlast, hzero, hsize⟩ := h.exists_first_last hg
  obtain ⟨later, forks, meets, hnodes, -⟩ := h.growth
  have hentry := hupward.entry_first hg hzero
  refine ⟨start, finish, g, hbuild, hupward.acyclic, ⟨by rw [hnodes]; rfl, h.start_component⟩, ⟨?_, h.finish_component⟩, ?_, ?_, ?_, ?_⟩
  · rw [hnodes, ← List.cons_append, List.getLast?_concat]
  · rw [hentry, ← hfirst]
    rfl
  · intro id hid
    obtain ⟨v, rfl⟩ := hg.mem_takenIds_iff.1 hid
    rw [hg.predecessors_idAt, List.map_eq_nil_iff, entry_ok hentry, ← hfirst, hg.idAt_inj]
  · intro id hid
    obtain ⟨v, rfl⟩ := hg.mem_takenIds_iff.1 hid
    rw [hg.successors_idAt, List.map_eq_nil_iff, hupward.successorsAt_eq_nil_iff hsize, ← hlast, hg.idAt_inj]
  · intro id hid
    obtain ⟨v, rfl⟩ := hg.mem_takenIds_iff.1 hid
    rw [← hfirst, ← hlast]
    exact hupward.exists_path_through hg hzero hsize v

/-- The flow of a seed, with structures nested up to three deep and up to three branches wide, and four stages. -/
theorem Generator.flow_runs_through_seed : Random.Stream.dice.Fair ∧ 2 ≤ 3 ∧ ∃ start finish g,
    (flowFrom Random.Stream.dice 3 "generated-42" 3 4 (.ofSeed 42) 0).RunsThrough start finish g :=
  ⟨Random.Stream.fair_dice, by decide,
    flow_runs_through Random.Stream.fair_dice (by decide) "generated-42" 3 4 (.ofSeed 42) 0⟩

end FlowPlan
