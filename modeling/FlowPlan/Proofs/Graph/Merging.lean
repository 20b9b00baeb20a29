import FlowPlan.Graph.Pairing
import FlowPlan.Proofs.Graph.Reach

/-!
# Merge nodes

`Graph.Merges` says what the merge node of a branch start is: the first registered branch end that the start leads to, itself
excepted. The pairing of a graph is exactly that (`Graph.mergeOf_eq_some_iff`, `Graph.mem_startsOf`). A branch start between
another one and its merge node has the same merge node (`Graph.Merges.nested`).
-/

namespace FlowPlan.Graph

/-! ## Helpers: the first element of a list in order -/

namespace MergingAux

/-- In an ascending list, what is found is the least element with the property. -/
theorem find?_eq_some_iff {n : Nat} {l : List (Fin n)} (h : l.Pairwise (· < ·)) {p : Fin n → Bool} {a : Fin n} :
    l.find? p = some a ↔ a ∈ l ∧ p a = true ∧ ∀ b ∈ l, p b = true → a ≤ b := by
  rw [List.find?_eq_some_iff_append]
  constructor
  · rintro ⟨ha, before, after, rfl, hbefore⟩
    refine ⟨by simp, ha, ?_⟩
    intro b hb hpb
    rcases List.mem_append.1 hb with hb | hb
    · have := hbefore b hb
      rw [hpb] at this
      cases this
    · rcases List.mem_cons.1 hb with rfl | hb
      · exact Fin.le_refl _
      · exact Fin.le_of_lt ((List.pairwise_cons.1 (List.pairwise_append.1 h).2.1).1 b hb)
  · rintro ⟨hm, ha, hleast⟩
    obtain ⟨before, after, rfl⟩ := List.append_of_mem hm
    refine ⟨ha, before, after, rfl, ?_⟩
    intro b hb
    have hlt : b < a := (List.pairwise_append.1 h).2.2 b hb a (List.mem_cons_self ..)
    cases hpb : p b with
    | false => rfl
    | true => exact absurd (hleast b (List.mem_append_left _ hb) hpb) (Fin.not_le.2 hlt)

/-- Two different members make a list longer than one. -/
theorem one_lt_length {α : Type} {l : List α} {a b : α} (ha : a ∈ l) (hb : b ∈ l) (hne : a ≠ b) : 1 < l.length := by
  rcases l with _ | ⟨x, _ | ⟨y, rest⟩⟩
  · cases ha
  · rw [List.mem_singleton] at ha hb
    exact absurd (ha.trans hb.symm) hne
  · simp

/-- In an ascending list, what holds of each element and those behind it holds of each element and the greater ones. -/
theorem rel_of_lt {n : Nat} {l : List (Fin n)} {R : Fin n → Fin n → Prop} (h : l.Pairwise (· < ·)) (hR : l.Pairwise R)
    {a b : Fin n} (ha : a ∈ l) (hb : b ∈ l) (hlt : a < b) : R a b := by
  induction l with
  | nil => cases ha
  | cons x rest ih =>
    rw [List.pairwise_cons] at h hR
    rcases List.mem_cons.1 ha with rfl | hrest
    · rcases List.mem_cons.1 hb with rfl | hb
      · exact absurd hlt (Fin.lt_irrefl b)
      · exact hR.1 b hb
    · rcases List.mem_cons.1 hb with rfl | hb
      · exact absurd (Fin.lt_trans (h.1 a hrest) hlt) (Fin.lt_irrefl b)
      · exact ih h.2 hR.2 hrest hb

end MergingAux

variable (g : Graph)

/-- What the merge node of a branch start is. -/
structure Merges (v e : Fin g.size) : Prop where
  start : 1 < (g.successorsAt v).length
  ends : 1 < (g.predecessorsAt e).length
  other : e ≠ v
  leads : g.Leads v e
  first : ∀ e', 1 < (g.predecessorsAt e').length → e' ≠ v → g.Leads v e' → e ≤ e'

/-- Several branch starts are paired with a merge node. -/
def Shared (e : Fin g.size) : Prop :=
  1 < (g.pairing.startsOf.get e).length

variable {g}

/-- A branch start has more than one successor. -/
theorem isBranchStart_iff {v : Fin g.size} : g.adjacency.isBranchStart v = true ↔ 1 < (g.successorsAt v).length := by
  rw [Adjacency.isBranchStart, decide_eq_true_iff, successorsAt]

/-- A branch end has more than one predecessor. -/
theorem isBranchEnd_iff {e : Fin g.size} : g.adjacency.isBranchEnd e = true ↔ 1 < (g.predecessorsAt e).length := by
  rw [Adjacency.isBranchEnd, decide_eq_true_iff, predecessorsAt]

/-- Pairing branch starts one by one gives each of them its merge node and leaves the other nodes as they were. -/
theorem mergeOf_foldl_pair {n : Nat} {a : Adjacency n} {ends : List (Fin n)} (starts : List (Fin n)) (p : Pairing n) (v : Fin n) :
    (starts.foldl (Pairing.pair a ends) p).mergeOf.get v =
      if v ∈ starts then Pairing.mergeFor a ends v else p.mergeOf.get v := by
  induction starts generalizing p with
  | nil => simp
  | cons start rest ih =>
    have hpair : (Pairing.pair a ends p start).mergeOf.get v =
        if start = v then Pairing.mergeFor a ends v else p.mergeOf.get v := by
      unfold Pairing.pair
      split <;> rename_i hfor <;> rw [Adjacency.get_set] <;> split <;> simp_all
    rw [List.foldl_cons, ih, hpair]
    by_cases hrest : v ∈ rest
    · rw [if_pos hrest, if_pos (List.mem_cons_of_mem _ hrest)]
    · rw [if_neg hrest]
      simp only [List.mem_cons, hrest, or_false, eq_comm]

/-- Pairing branch starts one by one lists each of them with its merge node, behind those that are listed there. -/
theorem startsOf_foldl_pair {n : Nat} {a : Adjacency n} {ends : List (Fin n)} (starts : List (Fin n)) (p : Pairing n) (e : Fin n) :
    (starts.foldl (Pairing.pair a ends) p).startsOf.get e =
      p.startsOf.get e ++ starts.filter fun v => Pairing.mergeFor a ends v == some e := by
  induction starts generalizing p with
  | nil => simp
  | cons start rest ih =>
    have hpair : (Pairing.pair a ends p start).startsOf.get e =
        p.startsOf.get e ++ if Pairing.mergeFor a ends start == some e then [start] else [] := by
      unfold Pairing.pair
      split <;> rename_i hfor <;> rw [hfor]
      · rw [Adjacency.get_set]
        split <;> simp_all
      · simp
    rw [List.foldl_cons, ih, hpair, List.append_assoc, List.filter_cons]
    split <;> rfl

/-- A branch start is paired with the first branch end that it leads to, and no other node is paired. -/
theorem mergeOf_get (v : Fin g.size) : g.pairing.mergeOf.get v = if g.adjacency.isBranchStart v then
    Pairing.mergeFor g.adjacency ((List.finRange g.size).filter g.adjacency.isBranchEnd) v else none := by
  have hempty : (Pairing.empty g.size).mergeOf.get v = none := Vector.getElem_replicate v.isLt
  rw [pairing, Pairing.ofAdjacency, mergeOf_foldl_pair, hempty]
  simp only [List.mem_filter, List.mem_finRange, true_and]

/-- The pairing of a graph. -/
theorem mergeOf_eq_some_iff {v e : Fin g.size} : g.pairing.mergeOf.get v = some e ↔ g.Merges v e := by
  have ascending : ((List.finRange g.size).filter g.adjacency.isBranchEnd).Pairwise (· < ·) :=
    (List.pairwise_lt_finRange g.size).filter _
  have isEnd : ∀ w, w ∈ (List.finRange g.size).filter g.adjacency.isBranchEnd ↔ 1 < (g.predecessorsAt w).length := by
    intro w
    rw [List.mem_filter, isBranchEnd_iff]
    exact and_iff_right (List.mem_finRange w)
  have leadsTo : ∀ w, (decide (w ≠ v) && g.adjacency.reaches v w) = true ↔ w ≠ v ∧ g.Leads v w := by
    intro w
    rw [Bool.and_eq_true, decide_eq_true_iff]
    exact and_congr_right fun _ => reaches_iff
  rw [mergeOf_get, Option.ite_none_right_eq_some, isBranchStart_iff, Pairing.mergeFor, MergingAux.find?_eq_some_iff ascending]
  simp only [isEnd, leadsTo]
  constructor
  · rintro ⟨hstart, hends, ⟨hother, hleads⟩, hfirst⟩
    exact ⟨hstart, hends, hother, hleads, fun e' he' hne hl => hfirst e' he' ⟨hne, hl⟩⟩
  · intro h
    exact ⟨h.start, h.ends, ⟨h.other, h.leads⟩, fun e' he' hl => h.first e' he' hl.1 hl.2⟩

/-- Only branch starts are paired. -/
theorem mergeOf_eq_none {g : Graph} {v : Fin g.size} (h : ¬ 1 < (g.successorsAt v).length) : g.pairing.mergeOf.get v = none :=
  Option.eq_none_iff_forall_ne_some.2 fun _ hm => h (mergeOf_eq_some_iff.1 hm).start

/-- The branch starts of a merge node, in the order of registration. -/
theorem startsOf_get (e : Fin g.size) :
    g.pairing.startsOf.get e = g.vertices.filter fun v => g.pairing.mergeOf.get v == some e := by
  have hempty : (Pairing.empty g.size).startsOf.get e = [] := Vector.getElem_replicate e.isLt
  rw [pairing, Pairing.ofAdjacency, startsOf_foldl_pair, hempty, List.nil_append, List.filter_filter]
  refine List.filter_congr fun v _ => ?_
  rw [← Pairing.ofAdjacency, ← pairing, mergeOf_get]
  split <;> simp_all

/-- A merge node lists the branch starts that are paired with it. -/
theorem mem_startsOf {v e : Fin g.size} : v ∈ g.pairing.startsOf.get e ↔ g.pairing.mergeOf.get v = some e := by
  rw [startsOf_get, List.mem_filter, beq_iff_eq]
  exact and_iff_right (List.mem_finRange v)

/-- A shared merge node ends branches. -/
theorem Shared.ends {e : Fin g.size} (h : g.Shared e) : 1 < (g.predecessorsAt e).length := by
  obtain ⟨v, hv⟩ := List.exists_mem_of_length_pos (Nat.lt_trans Nat.zero_lt_one h)
  exact (mergeOf_eq_some_iff.1 (mem_startsOf.1 hv)).ends

/-- A merge node with which two branch starts are paired is shared. -/
theorem shared_of_two {s t e : Fin g.size} (hs : g.pairing.mergeOf.get s = some e) (ht : g.pairing.mergeOf.get t = some e)
    (hne : s ≠ t) : g.Shared e :=
  MergingAux.one_lt_length (mem_startsOf.2 hs) (mem_startsOf.2 ht) hne

/-- A branch start that leads to a branch end has a merge node. -/
theorem exists_merges {v e : Fin g.size} (hv : 1 < (g.successorsAt v).length) (he : 1 < (g.predecessorsAt e).length)
    (hne : e ≠ v) (h : g.Leads v e) : ∃ m, g.Merges v m := by
  cases hm : g.pairing.mergeOf.get v with
  | some m => exact ⟨m, mergeOf_eq_some_iff.1 hm⟩
  | none =>
    rw [mergeOf_get, if_pos (isBranchStart_iff.2 hv), Pairing.mergeFor, List.find?_eq_none] at hm
    refine absurd ?_ (hm e (List.mem_filter.2 ⟨List.mem_finRange e, isBranchEnd_iff.2 he⟩))
    rw [Bool.and_eq_true, decide_eq_true_iff]
    exact ⟨hne, reaches_iff.2 h⟩

/-- Two branch starts that lead to each other's merge nodes have the same one. -/
theorem Merges.eq_of_leads {s t m e : Fin g.size} (hs : g.Merges s m) (ht : g.Merges t e) (hse : g.Leads s e)
    (hes : e ≠ s) (htm : g.Leads t m) (hmt : m ≠ t) : m = e := by
  have hle : m ≤ e := hs.first e ht.ends hes hse
  have hge : e ≤ m := ht.first m hs.ends hmt htm
  exact Fin.le_antisymm hle hge

/-- A branch start between another one and its merge node has the same merge node. -/
theorem Merges.nested {s t e : Fin g.size} (h : g.Merges s e) (ht : 1 < (g.successorsAt t).length) (hst : g.Leads s t)
    (hte : g.Leads t e) (hne : e ≠ t) (hback : g.pairing.mergeOf.get t ≠ some s) : g.Merges t e := by
  obtain ⟨m, hm⟩ := exists_merges ht h.ends hne hte
  have hms : m ≠ s := fun he => hback (he ▸ mergeOf_eq_some_iff.2 hm)
  exact hm.eq_of_leads h hte hne (hst.trans hm.leads) hms ▸ hm

/-! ## Questions by id -/

namespace Indexes

variable {catalog : NodeCatalog} {nodes : List Flow.Node} {edges : List Flow.Edge}

@[simp] theorem node?_idAt (h : Indexes catalog nodes edges g) (v : Fin g.size) : g.node? (g.idAt v) = some (g.node v) := by
  simp [node?]

/-- A node that is found under an id has a position. -/
theorem exists_of_node? (h : Indexes catalog nodes edges g) {id : String} {node : Node} (hid : g.node? id = some node) :
    ∃ v, g.idAt v = id ∧ g.node v = node := by
  obtain ⟨v, hv, he⟩ := Option.map_eq_some_iff.1 hid
  exact ⟨v, h.find?_eq_some_iff.1 hv, he⟩

/-- Successors by id are the ids of the successors. -/
@[simp] theorem successors_idAt (h : Indexes catalog nodes edges g) (v : Fin g.size) :
    g.successors (g.idAt v) = (g.successorsAt v).map g.idAt := by
  simp [successors]

/-- Predecessors by id are the ids of the predecessors. -/
@[simp] theorem predecessors_idAt (h : Indexes catalog nodes edges g) (w : Fin g.size) :
    g.predecessors (g.idAt w) = (g.predecessorsAt w).map g.idAt := by
  simp [predecessors]

/-- The branch end by id is the id of the merge node. -/
@[simp] theorem branchEnd?_idAt (h : Indexes catalog nodes edges g) (v : Fin g.size) :
    g.branchEnd? (g.idAt v) = (g.pairing.mergeOf.get v).map g.idAt := by
  simp [branchEnd?]

/-- Branch starts by id are the ids of the branch starts. -/
@[simp] theorem branchStartsOf_idAt (h : Indexes catalog nodes edges g) (e : Fin g.size) :
    g.branchStartsOf (g.idAt e) = (g.pairing.startsOf.get e).map g.idAt := by
  simp [branchStartsOf]

@[simp] theorem outDegree_idAt (h : Indexes catalog nodes edges g) (v : Fin g.size) :
    g.outDegree (g.idAt v) = (g.successorsAt v).length := by
  simp [outDegree]

/-- Links between ids of nodes are links between the nodes. -/
theorem mem_successors_idAt (h : Indexes catalog nodes edges g) {v w : Fin g.size} :
    g.idAt w ∈ g.successors (g.idAt v) ↔ w ∈ g.successorsAt v := by
  rw [h.successors_idAt]
  exact List.mem_map_of_injective fun _ _ => h.ids_injective

/-- Predecessors and successors by id are converse. -/
theorem mem_predecessors_iff (h : Indexes catalog nodes edges g) {v w : String} :
    v ∈ g.predecessors w ↔ w ∈ g.successors v := by
  have unknown : ∀ id, g.find? id = none → ∀ x, g.idAt x ≠ id := by
    intro id hid x hx
    rw [h.find?_eq_some_iff.2 hx] at hid
    cases hid
  rw [predecessors, successors]
  cases hv : g.find? v with
  | none =>
    simp only [Option.elim_none, List.map_nil, List.not_mem_nil, iff_false, List.mem_map, not_exists, not_and]
    exact fun x _ => unknown v hv x
  | some x =>
    cases hw : g.find? w with
    | none =>
      simp only [Option.elim_none, List.map_nil, List.not_mem_nil, false_iff, List.mem_map, not_exists, not_and]
      exact fun y _ => unknown w hw y
    | some y =>
      obtain rfl := h.find?_eq_some_iff.1 hv
      obtain rfl := h.find?_eq_some_iff.1 hw
      rw [Option.elim_some, Option.elim_some, List.mem_map_of_injective fun _ _ => h.ids_injective,
        List.mem_map_of_injective fun _ _ => h.ids_injective]
      exact h.mem_predecessorsAt_iff

/-- The merge nodes of a flow in the order of its declaration are the branch ends in the order of registration. -/
theorem map_idAt_ends (h : Indexes catalog nodes edges g) :
    (g.vertices.filter fun v => decide (1 < (g.predecessorsAt v).length)).map g.idAt =
      (nodes.map (·.id)).filter g.isBranchEnd := by
  have hend : ∀ v, g.isBranchEnd (g.idAt v) = decide (1 < (g.predecessorsAt v).length) := by
    simp [isBranchEnd, inDegree]
  rw [← h.map_idAt_declared, List.filter_map, List.filter_filter]
  refine congrArg _ (List.filter_congr fun v _ => ?_)
  rw [Function.comp_apply, hend]
  by_cases hv : 1 < (g.predecessorsAt v).length
  · simp [hv, h.not_branch_of_ends hv]
  · simp [hv]

/-- Reachability by ids is that of the nodes. -/
@[simp] theorem isReachable_idAt_iff (h : Indexes catalog nodes edges g) {v w : Fin g.size} :
    g.isReachable (g.idAt v) (g.idAt w) = true ↔ g.Leads v w := by
  simp only [isReachable, h.find?_idAt]
  exact reaches_iff

theorem branchEnd?_idAt_iff (h : Indexes catalog nodes edges g) {v e : Fin g.size} :
    g.branchEnd? (g.idAt v) = some (g.idAt e) ↔ g.pairing.mergeOf.get v = some e := by
  rw [h.branchEnd?_idAt, Option.map_eq_some_iff]
  constructor
  · rintro ⟨m, hm, he⟩
    exact h.ids_injective he ▸ hm
  · exact fun hm => ⟨e, hm, rfl⟩

/-- A merge node that branch starts are paired with has a position. -/
theorem exists_of_branchStartsOf (h : Indexes catalog nodes edges g) {id : String} (hid : 0 < (g.branchStartsOf id).length) :
    ∃ e, g.idAt e = id := by
  cases hf : g.find? id with
  | none =>
    rw [branchStartsOf, hf] at hid
    simp at hid
  | some e => exact ⟨e, h.find?_eq_some_iff.1 hf⟩

theorem mem_branchStartsOf_idAt (h : Indexes catalog nodes edges g) {v e : Fin g.size} :
    g.idAt v ∈ g.branchStartsOf (g.idAt e) ↔ g.pairing.mergeOf.get v = some e := by
  rw [h.branchStartsOf_idAt, List.mem_map_of_injective fun _ _ => h.ids_injective, mem_startsOf]

/-- A merge node is shared by ids when it is by nodes. -/
theorem shared_idAt_iff (h : Indexes catalog nodes edges g) {e : Fin g.size} :
    1 < (g.branchStartsOf (g.idAt e)).length ↔ g.Shared e := by
  simp [Shared]

end Indexes

end FlowPlan.Graph
