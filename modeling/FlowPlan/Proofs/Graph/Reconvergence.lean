import FlowPlan.Proofs.Graph.Merging

/-!
# Where branches meet again

What a graph answers about reachability and about merge nodes, said in ids and links alone (`reconvergence_of_build`): a node is
reachable exactly if one link or more lead to it, loops included; a branch start is paired with the first registered node where its
branches may meet (`Graph.MeetsAt`); and the branch starts of a merge node are those that are paired with it. A branch start
between another one and its merge node shares that merge node (`branchEnd_of_nested`).
-/

namespace FlowPlan

open Relation

namespace Graph

variable (g : Graph)

/-- The ids of all nodes in the order of registration. -/
def ids : List String :=
  g.vertices.map g.idAt

/-- Branches that leave `start` may meet at `e`: another node, which several links enter and to which links lead from `start`. -/
structure MeetsAt (start e : String) : Prop where
  other : e ≠ start
  ends : 1 < g.inDegree e
  leads : TransGen (fun v w => w ∈ g.successors v) start e

variable {g}

namespace Indexes

variable {catalog : NodeCatalog} {nodes : List Flow.Node} {edges : List Flow.Edge}

@[simp] theorem inDegree_idAt (h : Indexes catalog nodes edges g) (w : Fin g.size) :
    g.inDegree (g.idAt w) = (g.predecessorsAt w).length := by
  simp [inDegree]

/-- A link between ids is one between nodes. -/
theorem exists_of_mem_successors (h : Indexes catalog nodes edges g) {id id' : String} (hl : id' ∈ g.successors id) :
    ∃ v w, g.idAt v = id ∧ g.idAt w = id' ∧ w ∈ g.successorsAt v := by
  cases hf : g.find? id with
  | none =>
    rw [successors, hf] at hl
    cases hl
  | some v =>
    obtain rfl := h.find?_eq_some_iff.1 hf
    rw [h.successors_idAt] at hl
    obtain ⟨w, hw, rfl⟩ := List.mem_map.1 hl
    exact ⟨v, w, rfl, rfl, hw⟩

/-- Links between ids lead where links between nodes lead. -/
theorem transGen_successors_iff (h : Indexes catalog nodes edges g) {id id' : String} :
    TransGen (fun v w => w ∈ g.successors v) id id' ↔ ∃ v w, g.idAt v = id ∧ g.idAt w = id' ∧ g.Leads v w := by
  constructor
  · intro hl
    induction hl with
    | single hl =>
      obtain ⟨v, w, hv, hw, hl⟩ := h.exists_of_mem_successors hl
      exact ⟨v, w, hv, hw, .of_mem hl⟩
    | tail _ hl ih =>
      obtain ⟨v, w, hv, rfl, hvw⟩ := ih
      obtain ⟨w', x, hw, hx, hl⟩ := h.exists_of_mem_successors hl
      exact ⟨v, x, hv, hx, hvw.trans (.of_mem (h.ids_injective hw ▸ hl))⟩
  · rintro ⟨v, w, rfl, rfl, hl⟩
    exact TransGen.lift g.idAt (fun x y hl => h.mem_successors_idAt.2 hl) v w hl

/-- A node is reachable exactly if links lead to it, for unknown ids too. -/
theorem isReachable_iff (h : Indexes catalog nodes edges g) {source target : String} :
    g.isReachable source target = true ↔ TransGen (fun v w => w ∈ g.successors v) source target := by
  rw [h.transGen_successors_iff]
  constructor
  · intro hr
    unfold isReachable at hr
    split at hr
    · rename_i v w hv hw
      exact ⟨v, w, h.find?_eq_some_iff.1 hv, h.find?_eq_some_iff.1 hw, reaches_iff.1 hr⟩
    · cases hr
  · rintro ⟨v, w, rfl, rfl, hl⟩
    exact h.isReachable_idAt_iff.2 hl

/-- Where branches may meet, by nodes: at another node with several ways in, behind the start. -/
theorem meetsAt_idAt_iff (h : Indexes catalog nodes edges g) {v e : Fin g.size} :
    g.MeetsAt (g.idAt v) (g.idAt e) ↔ 1 < (g.predecessorsAt e).length ∧ e ≠ v ∧ g.Leads v e := by
  have hother : g.idAt e ≠ g.idAt v ↔ e ≠ v := not_congr h.idAt_inj
  have hleads : TransGen (fun v w => w ∈ g.successors v) (g.idAt v) (g.idAt e) ↔ g.Leads v e :=
    h.isReachable_iff.symm.trans h.isReachable_idAt_iff
  rw [← h.inDegree_idAt, ← hother, ← hleads]
  exact ⟨fun hm => ⟨hm.ends, hm.other, hm.leads⟩, fun hm => ⟨hm.2.1, hm.1, hm.2.2⟩⟩

/-- Where branches may meet is a node of the graph. -/
theorem mem_ids_of_meetsAt (h : Indexes catalog nodes edges g) {start e : String} (hm : g.MeetsAt start e) : e ∈ g.ids := by
  obtain ⟨-, w, -, rfl, -⟩ := h.transGen_successors_iff.1 hm.leads
  exact List.mem_map_of_mem (List.mem_finRange w)

/-- The merge node of a branch start is the first registered node where its branches may meet. -/
theorem branchEnd?_eq_find? (h : Indexes catalog nodes edges g) (start : String) [DecidablePred (g.MeetsAt start)] :
    g.branchEnd? start = if 1 < g.outDegree start then g.ids.find? fun e => g.MeetsAt start e else none := by
  cases hf : g.find? start with
  | none =>
    rw [branchEnd?, outDegree, successors, hf]
    rfl
  | some v =>
    obtain rfl := h.find?_eq_some_iff.1 hf
    rw [h.branchEnd?_idAt, mergeOf_get, h.outDegree_idAt]
    by_cases hmany : 1 < (g.successorsAt v).length
    · rw [if_pos (isBranchStart_iff.2 hmany), if_pos hmany, Pairing.mergeFor, ids, List.find?_map, List.find?_filter]
      refine congrArg (fun p => (g.vertices.find? p).map g.idAt) (funext fun e => ?_)
      rw [Bool.eq_iff_iff, Function.comp_apply]
      simp only [Bool.and_eq_true, decide_eq_true_iff, isBranchEnd_iff, h.meetsAt_idAt_iff]
      exact and_congr_right fun _ => and_congr_right fun _ => reaches_iff
    · rw [if_neg (mt isBranchStart_iff.1 hmany), if_neg hmany]
      rfl

/-- The branch starts of a merge node are those that are paired with it, in the order of registration. -/
theorem branchStartsOf_eq (h : Indexes catalog nodes edges g) (e : String) :
    g.branchStartsOf e = g.ids.filter fun start => g.branchEnd? start = some e := by
  rw [ids, List.filter_map]
  cases hf : g.find? e with
  | none =>
    have unknown : ∀ v ∈ g.vertices, ¬ ((fun start => decide (g.branchEnd? start = some e)) ∘ g.idAt) v = true := by
      intro v _ hv
      rw [Function.comp_apply, decide_eq_true_iff, h.branchEnd?_idAt, Option.map_eq_some_iff] at hv
      obtain ⟨w, -, hw⟩ := hv
      rw [h.find?_eq_some_iff.2 hw] at hf
      cases hf
    rw [branchStartsOf, hf, List.filter_eq_nil_iff.2 unknown]
    rfl
  | some w =>
    obtain rfl := h.find?_eq_some_iff.1 hf
    rw [h.branchStartsOf_idAt, startsOf_get]
    refine congrArg (List.map g.idAt) (List.filter_congr fun v _ => ?_)
    rw [Bool.eq_iff_iff, Function.comp_apply, decide_eq_true_iff, beq_iff_eq, h.branchEnd?_idAt_iff]

/-- A graph has each id once. -/
theorem nodup_ids (h : Indexes catalog nodes edges g) : g.ids.Nodup :=
  (List.nodup_finRange g.size).map fun _ _ => h.ids_injective

end Indexes

end Graph

open FlowPlan.Graph

/-- Of every graph, with loops or without:
1. A node is reachable from another one, or from itself, exactly if one link or more lead there.
2. A node is paired with `e` exactly if several links leave it and `e` is the first registered node where its branches may meet.
3. It is paired with nothing exactly if it is no branch start or its branches may meet nowhere.
4. The branch starts of `e` are exactly the nodes that are paired with `e`, each one once and in the order of registration. -/
theorem reconvergence_of_build {catalog : NodeCatalog} {nodes : List Flow.Node} {edges : List Flow.Edge} {g : Graph}
    (hg : Graph.build catalog nodes edges = .ok g) :
    (∀ source target, g.isReachable source target = true ↔ TransGen (fun v w => w ∈ g.successors v) source target) ∧
      (∀ start e, g.branchEnd? start = some e ↔ 1 < g.outDegree start ∧ ∃ before after, g.ids = before ++ e :: after ∧
        g.MeetsAt start e ∧ ∀ x ∈ before, ¬ g.MeetsAt start x) ∧
      (∀ start, g.branchEnd? start = none ↔ 1 < g.outDegree start → ∀ e, ¬ g.MeetsAt start e) ∧
      ∀ e, (g.branchStartsOf e).Nodup ∧ g.branchStartsOf e = g.ids.filter fun start => g.branchEnd? start = some e := by
  classical
  have h := indexes_of_build hg
  refine ⟨fun _ _ => h.isReachable_iff, fun start e => ?_, fun start => ?_, fun e => ⟨?_, h.branchStartsOf_eq e⟩⟩
  · rw [h.branchEnd?_eq_find?, Option.ite_none_right_eq_some, List.find?_eq_some_iff_append]
    simp only [decide_eq_true_iff, Bool.not_eq_true', decide_eq_false_iff_not]
    refine and_congr_right fun _ => ⟨?_, ?_⟩
    · rintro ⟨hm, before, after, hids, hfirst⟩
      exact ⟨before, after, hids, hm, hfirst⟩
    · rintro ⟨before, after, hids, hm, hfirst⟩
      exact ⟨hm, before, after, hids, hfirst⟩
  · rw [h.branchEnd?_eq_find?, ite_eq_right_iff, List.find?_eq_none]
    simp only [decide_eq_true_iff]
    refine forall_congr' fun _ => ⟨fun hall e hm => ?_, fun hall e _ => hall e⟩
    exact hall e (h.mem_ids_of_meetsAt hm) hm
  · rw [h.branchStartsOf_eq]
    exact h.nodup_ids.filter _

/-- Two loops back to B, which is a branch start and a merge node. -/
def Flow.polling : Flow where
  id := "polling"
  nodes := ["A", "B", "C", "D"].map fun id => { id := id, component := "script" }
  edges := [("A", "B"), ("B", "C"), ("B", "D"), ("C", "B"), ("C", "D"), ("D", "B")].map
    fun (source, target) => { source := source, target := target }

/-- In the graph of `Flow.polling`, D is on a loop; the branches of B meet at D, not at B itself, and those of C at B. -/
theorem reconvergence_of_build_polling : ∃ g, Graph.build .standard Flow.polling.nodes Flow.polling.edges = .ok g ∧
    (g.isReachable "D" "D" = true ∧ TransGen (fun v w => w ∈ g.successors v) "D" "D") ∧
      (g.branchEnd? "B" = some "D" ∧ ∃ before after, g.ids = before ++ "D" :: after ∧ g.MeetsAt "B" "D" ∧
        ∀ x ∈ before, ¬ g.MeetsAt "B" x) ∧
      g.branchStartsOf "B" = ["C"] := by
  obtain ⟨g, hg, hreach, hend, hstarts⟩ : ∃ g, Graph.build .standard Flow.polling.nodes Flow.polling.edges = .ok g ∧
      g.isReachable "D" "D" = true ∧ g.branchEnd? "B" = some "D" ∧ g.branchStartsOf "B" = ["C"] := by
    decide +kernel
  obtain ⟨hreachable, hpaired, -, -⟩ := reconvergence_of_build hg
  exact ⟨g, hg, ⟨hreach, (hreachable _ _).1 hreach⟩, ⟨hend, ((hpaired _ _).1 hend).2⟩, hstarts⟩

/-- A branch start `t` between a branch start `s` and its merge node `e` has the merge node `e` too, on graphs with loops and in
every order of declaration. Two things are excepted: `t` may be `e` itself, and a link back may pair `t` with `s`. -/
theorem branchEnd_of_nested {catalog : NodeCatalog} {nodes : List Flow.Node} {edges : List Flow.Edge} {g : Graph}
    (hg : Graph.build catalog nodes edges = .ok g) {s t e : String} (ht : g.isBranchStart t = true)
    (he : g.branchEnd? s = some e) (hst : g.isReachable s t = true) (hte : g.isReachable t e = true) (hne : e ≠ t)
    (hback : g.branchEnd? t ≠ some s) : g.branchEnd? t = some e := by
  have h := indexes_of_build hg
  obtain ⟨v, w, rfl, rfl, hvw⟩ := h.transGen_successors_iff.1 (h.isReachable_iff.1 hst)
  obtain ⟨w', x, hw, rfl, hwx⟩ := h.transGen_successors_iff.1 (h.isReachable_iff.1 hte)
  obtain rfl := h.ids_injective hw
  have hstart : 1 < (g.successorsAt w').length := by
    rw [isBranchStart, decide_eq_true_iff, h.outDegree_idAt] at ht
    exact ht
  have houter : g.Merges v x := mergeOf_eq_some_iff.1 (h.branchEnd?_idAt_iff.1 he)
  have hinner : g.Merges w' x := houter.nested hstart hvw hwx (fun hx => hne (congrArg g.idAt hx)) fun hm =>
    hback (h.branchEnd?_idAt_iff.2 hm)
  exact h.branchEnd?_idAt_iff.2 (mergeOf_eq_some_iff.2 hinner)

/-- A loop through A, whose branches meet at E. On one of them B opens two more, which meet at M first. -/
def Flow.inspection : Flow where
  id := "inspection"
  nodes := ["S", "E", "B", "C", "D", "M", "A", "Z"].map fun id => { id := id, component := "script" }
  edges := [("S", "A"), ("A", "B"), ("A", "E"), ("B", "C"), ("B", "D"), ("C", "M"), ("D", "M"), ("M", "E"), ("E", "A"),
    ("E", "Z")].map fun (source, target) => { source := source, target := target }

/-- In the graph of `Flow.inspection`, B shares the merge node E of A, though its branches meet at M before. -/
theorem branchEnd_of_nested_inspection : ∃ g,
    Graph.build .standard Flow.inspection.nodes Flow.inspection.edges = .ok g ∧ g.isBranchStart "B" = true ∧
      g.branchEnd? "A" = some "E" ∧ g.isReachable "A" "B" = true ∧ g.isReachable "B" "E" = true ∧ "E" ≠ "B" ∧
        g.branchEnd? "B" ≠ some "A" ∧ g.branchEnd? "B" = some "E" := by
  obtain ⟨g, hg, ht, he, hst, hte, hback⟩ : ∃ g, Graph.build .standard Flow.inspection.nodes Flow.inspection.edges = .ok g ∧
      g.isBranchStart "B" = true ∧ g.branchEnd? "A" = some "E" ∧ g.isReachable "A" "B" = true ∧
        g.isReachable "B" "E" = true ∧ g.branchEnd? "B" ≠ some "A" := by
    decide +kernel
  exact ⟨g, hg, ht, he, hst, hte, by decide, hback, branchEnd_of_nested hg ht he hst hte (by decide) hback⟩

end FlowPlan
