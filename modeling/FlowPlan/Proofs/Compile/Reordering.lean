import FlowPlan.Proofs.Compile.Coverage
import FlowPlan.Proofs.Compile.Interception
import FlowPlan.Proofs.Graph.Reordering

/-!
# The order in which a flow is declared

Compilations of graphs that differ in the numbers of their nodes at most have the same outcome
(`Compiler.compileGraph_of_renumbers`), interceptors included. So the order in which a flow lists its nodes and edges does not
matter beyond the order of its merge nodes and that of the edges that leave one node or branch (`compileGraph_reordered`). These two
do matter: the first merge node in reach closes a branch start, and bodies stand in the order of the edges.
-/

namespace FlowPlan

open FlowPlan.Graph

/-- The outcome of a compilation does not depend on the numbers of nodes. -/
theorem Compiler.compileGraph_of_renumbers {catalog : NodeCatalog} {nodes : List Flow.Node} {edges : List Flow.Edge} {g g' : Graph}
    {r : Fin g.size ≃ Fin g'.size} (hg : Indexes catalog nodes edges g) (h : Renumbers g g' r)
    (hentry : g'.entry = g.entry.map r) (c : Compiler) (flowId : String) :
    c.compileGraph flowId g' = c.compileGraph flowId g := by
  -- both compilations are told by the one of `g` without interceptors
  have hsame := c.compilation_of_renumbers hg (.refl g) (Renumbers.entry_refl g) flowId
  rcases c.compilation_of_renumbers hg h hentry flowId with ⟨e, hplain, he⟩ | ⟨steps, hplain, hroute, -⟩
  · rw [hplain] at hsame
    obtain ⟨e', ⟨⟩, he'⟩ | ⟨_, ⟨⟩, -⟩ := hsame
    rw [he, he']
  · rw [hplain] at hsame
    obtain ⟨_, ⟨⟩, -⟩ | ⟨steps', ⟨⟩, hroute', -⟩ := hsame
    rw [hroute, hroute']

/-- The order of edges matters among those that start at one node or branch, at an id without edges too. -/
theorem Graph.starts_at {g : Graph} {edges edges' : List Flow.Edge} (hedges : edges.Perm edges')
    (hstarts : ∀ e ∈ edges, edges.filter (fun e' => g.startOf e' = g.startOf e) =
      edges'.filter fun e' => g.startOf e' = g.startOf e) (id : String) :
    edges.filter (fun e => g.startOf e = id) = edges'.filter fun e => g.startOf e = id := by
  by_cases hsome : ∃ e ∈ edges, g.startOf e = id
  · obtain ⟨e, he, rfl⟩ := hsome
    exact hstarts e he
  · have hnone : edges.filter (fun e => g.startOf e = id) = [] := by
      refine List.filter_eq_nil_iff.2 fun e he => ?_
      simpa using fun hid => hsome ⟨e, he, hid⟩
    have hperm := hedges.filter (fun e => decide (g.startOf e = id))
    rw [hnone] at hperm
    rw [hnone, List.nil_perm.1 hperm]

/-- A flow that is indexed is indexed in any other order of its nodes and edges too, and when its graph has an entry, compilations
of the two graphs have the same outcome, as long as merge nodes keep their order and so do edges that start at one node or branch. -/
theorem compileGraph_reordered {catalog : NodeCatalog} {nodes nodes' : List Flow.Node} {edges edges' : List Flow.Edge} {g : Graph}
    (hg : Graph.build catalog nodes edges = .ok g) (hnodes : nodes.Perm nodes') (hedges : edges.Perm edges')
    (hends : nodes.filter (fun n => g.isBranchEnd n.id) = nodes'.filter fun n => g.isBranchEnd n.id)
    (hstarts : ∀ e ∈ edges, edges.filter (fun e' => g.startOf e' = g.startOf e) =
      edges'.filter fun e' => g.startOf e' = g.startOf e) :
    ∃ g', Graph.build catalog nodes' edges' = .ok g' ∧ ∀ entry, g.entry = .ok entry →
      ∀ (c : Compiler) (flowId : String), c.compileGraph flowId g' = c.compileGraph flowId g := by
  obtain ⟨g', r, hg', hnode⟩ := exists_build_of_perm hg hnodes hedges
  refine ⟨g', hg', fun entry hentry c flowId => ?_⟩
  have h := indexes_of_build hg
  have h' := indexes_of_build hg'
  have hsuccessors : ∀ v, g'.successorsAt (r v) = (g.successorsAt v).map r :=
    fun v => successors_renumbered h h' hnode (starts_at hedges hstarts (g.idAt v))
  have hentry' : g'.entry = g.entry.map r := by
    rw [hentry]
    exact entry_renumbered h h' hsuccessors hentry
  exact c.compileGraph_of_renumbers h (renumbers_of_perm h h' hnode hsuccessors hends) hentry' flowId

/-- `Flow.stages` listed in another order, D still before I, and the edges that leave A, D and E still in order. -/
def Flow.shuffledStages : Flow where
  id := "stages"
  nodes := ["G", "B", "D", "A", "I", "E"].map fun id => { id := id, component := "script" }
  edges := [("G", "I"), ("D", "E"), ("A", "B"), ("E", "G"), ("A", "D"), ("D", "I"), ("B", "D"), ("E", "I")].map
    fun (source, target) => { source := source, target := target }

/-- With interceptors that wrap every step, the plans of `Flow.stages` and `Flow.shuffledStages` are the same. -/
theorem compileGraph_reordered_stages : ∃ (g g' : Graph) (entry : Fin g.size) (chain : Chain),
    Graph.build .standard Flow.stages.nodes Flow.stages.edges = .ok g ∧ g.entry = .ok entry ∧
      Graph.build .standard Flow.shuffledStages.nodes Flow.shuffledStages.edges = .ok g' ∧ chain = [.wrap "w" 0] ∧
        Compiler.compileGraph { chain := chain } "stages" g' = Compiler.compileGraph { chain := chain } "stages" g := by
  obtain ⟨g, hg, ⟨entry, hentry⟩, hends, hends', hstarts⟩ :
      ∃ g, Graph.build .standard Flow.stages.nodes Flow.stages.edges = .ok g ∧ (∃ entry, g.entry = .ok entry) ∧
        ["A", "B", "D", "E", "G", "I"].filter g.isBranchEnd = ["D", "I"] ∧
        ["G", "B", "D", "A", "I", "E"].filter g.isBranchEnd = ["D", "I"] ∧
        ∀ e ∈ Flow.stages.edges, Flow.stages.edges.filter (fun e' => g.startOf e' = g.startOf e) =
          Flow.shuffledStages.edges.filter fun e' => g.startOf e' = g.startOf e := by
    decide +kernel
  have hnodes : Flow.stages.nodes.Perm Flow.shuffledStages.nodes := List.Perm.map _ (by decide)
  have hmerges : Flow.stages.nodes.filter (fun n => g.isBranchEnd n.id) =
      Flow.shuffledStages.nodes.filter fun n => g.isBranchEnd n.id := by
    rw [Flow.stages, Flow.shuffledStages, List.filter_map, List.filter_map]
    exact congrArg _ (hends.trans hends'.symm)
  obtain ⟨g', hg', hsame⟩ := compileGraph_reordered hg hnodes (by decide) hmerges hstarts
  exact ⟨g, g', entry, _, hg, hentry, hg', rfl, hsame entry hentry { chain := [.wrap "w" 0] } "stages"⟩

end FlowPlan
