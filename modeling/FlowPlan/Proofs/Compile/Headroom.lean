import FlowPlan.Proofs.Compile.Budget
import FlowPlan.Proofs.Compile.Coverage
import FlowPlan.Proofs.Compile.Termination
import Mathlib.Algebra.BigOperators.Group.Finset.Basic

/-!
# Where the limit of the elements is out of reach

A plan may have more elements than its graph has nodes, since a parallel element has no node of its own. But each of them stands
behind a step or is the first element under a branch. So a plan has at most two elements for each position that goes with one of
its nodes (`Unfolds.tally_le`), and when no node stands in it twice, two for each position of the graph.

A compilation with two levels of depth or more may count that many. With less it comes to nothing but one straight run, on which
no node is met twice (`Setting.unfoldEntry_charges_shallow`).

Main statement: on the graph of such a plan, no compilation is stopped by the limit of the elements
(`limit_spares_plans_without_repetition`).
-/

namespace FlowPlan

open FlowPlan.Graph

variable {catalog : NodeCatalog} {nodes : List Flow.Node} {edges : List Flow.Edge} {g : Graph}

/-! ## Positions that go with ids -/

namespace Graph

/-- The positions that go with an id: its node and, when that is conditional, the branches of it. -/
def held (g : Graph) (id : String) : Finset (Fin g.size) :=
  Finset.univ.filter fun w => g.idAt (g.holder w) = id

/-- How many positions go with ids, for each of them. -/
def share (g : Graph) (ids : List String) : Nat :=
  (ids.map fun id => (g.held id).card).sum

theorem share_append (ids ids' : List String) : g.share (ids ++ ids') = g.share ids + g.share ids' := by
  rw [share, List.map_append, List.sum_append]
  rfl

/-- A position goes with one id. -/
theorem share_le_size {ids : List String} (h : ids.Nodup) : g.share ids ≤ g.size :=
  calc g.share ids = ∑ id ∈ ids.toFinset, (g.held id).card := (List.sum_toFinset _ h).symm
    _ = (Finset.univ.filter fun w => g.idAt (g.holder w) ∈ ids.toFinset).card := Finset.sum_card_fiberwise_eq_card_filter ..
    _ ≤ (Finset.univ : Finset (Fin g.size)).card := Finset.card_filter_le ..
    _ = g.size := Finset.card_fin g.size

theorem mem_held {v w : Fin g.size} (h : g.holder w = v) : w ∈ g.held (g.idAt v) :=
  Finset.mem_filter.2 ⟨Finset.mem_univ w, congrArg g.idAt h⟩

/-- A node that is no branch goes with its own id. -/
theorem card_held_pos {v : Fin g.size} (hv : (g.node v).isBranch = false) : 0 < (g.held (g.idAt v)).card :=
  Finset.card_pos.2 ⟨v, mem_held (holder_eq_self hv)⟩

/-- With a conditional node go its branches. -/
theorem Indexes.length_successorsAt_lt (h : Indexes catalog nodes edges g) {v : Fin g.size} {ids : List String}
    (hk : (g.node v).kind = .conditional ids) : (g.successorsAt v).length < (g.held (g.idAt v)).card := by
  have hv : (g.node v).isBranch = false := by rw [Node.isBranch, hk]
  have hbranch : ∀ w ∈ g.successorsAt v, (g.node w).isBranch = true := by
    intro w hw
    refine Bool.of_not_eq_false fun hno => ?_
    have hplain := h.not_conditional_of_successor hno hw
    rw [isConditional_of_kind hk] at hplain
    cases hplain
  have hself : v ∉ g.successorsAt v := fun hm => by rw [hbranch v hm] at hv; cases hv
  have hnd : (v :: g.successorsAt v).Nodup := List.nodup_cons.2 ⟨hself, h.nodup_successorsAt v⟩
  have hsub : (v :: g.successorsAt v).toFinset ⊆ g.held (g.idAt v) := by
    intro w hw
    rcases List.mem_cons.1 (List.mem_toFinset.1 hw) with rfl | hw
    · exact mem_held (holder_eq_self hv)
    · obtain ⟨parent, condition, hkw⟩ := kind_of_isBranch (hbranch w hw)
      exact mem_held (h.holder_branch hw hkw)
  have hcard := Finset.card_le_card hsub
  rw [List.toFinset_card_of_nodup hnd] at hcard
  exact hcard

/-- How many positions go with the nodes of a sequence. -/
def spent (g : Graph) (es : List Element) : Nat :=
  g.share ((Element.nodesOfBody es).map Step.id)

theorem share_flatMap {α : Type} (f : α → List Step) (l : List α) :
    g.share ((l.flatMap f).map Step.id) = (l.map fun a => g.share ((f a).map Step.id)).sum := by
  induction l with
  | nil => rfl
  | cons a rest ih => rw [List.flatMap_cons, List.map_append, share_append, ih, List.map_cons, List.sum_cons]

/-- An element in front spends the positions of its nodes. -/
theorem spent_cons (e : Element) (rest : List Element) : g.spent (e :: rest) = g.share (e.nodes.map Step.id) + g.spent rest := by
  rw [spent, Element.nodesOfBody, List.map_append, share_append]
  rfl

/-- A step spends the positions that go with its node. -/
theorem spent_stepOn (v : Fin g.size) (rest : List Element) :
    g.spent (g.stepOn v :: rest) = (g.held (g.idAt v)).card + g.spent rest := by
  rw [spent_cons, nodes_stepOn]
  rfl

/-- A parallel element spends no positions of its own. -/
theorem spent_parallel {id : String} {lanes : List (LaneBody g.size)} {rest : List Element} :
    g.spent (.parallel id (LaneBody.lanes id 0 lanes) :: rest) = (lanes.map fun l => g.spent l.body).sum + g.spent rest := by
  rw [spent_cons, Element.nodes, Element.nodesOfLanes_eq, share_flatMap]
  rfl

/-- A choice spends the positions of its node, which are those of its branches too, and what its bodies spend. -/
theorem Indexes.spent_choiceOn (h : Indexes catalog nodes edges g) {v : Fin g.size} {ids : List String} {id : String}
    {bodies : List (ArmBody g.size)} {rest : List Element} (hk : (g.node v).kind = .conditional ids)
    (hbranches : bodies.map ArmBody.branch = g.successorsAt v)
    (hkinds : ∀ b ∈ bodies, ∃ parent, (g.node b.branch).kind = .branch parent b.condition) :
    g.spent (g.choiceOn id v bodies :: rest) =
      (g.held (g.idAt v)).card + (bodies.map fun b => g.spent b.body).sum + g.spent rest := by
  rw [spent_cons, choiceOn, Element.nodes, Element.nodesOfBodies_eq, ← h.sum_bodiesOf hk hbranches hkinds]
  change (g.held (g.idAt v)).card + g.share (List.map Step.id _) + _ = _
  rw [share_flatMap]
  rfl

end Graph

/-! ## Elements and positions -/

/-- A sum of values that are at most twice others and a constant more. -/
theorem sum_map_le {α : Type} {f f' : α → Nat} {k : Nat} {l : List α} (h : ∀ a ∈ l, f a ≤ 2 * f' a + k) :
    (l.map f).sum ≤ 2 * (l.map f').sum + k * l.length := by
  induction l with
  | nil => exact Nat.zero_le _
  | cons a rest ih =>
    obtain ⟨ha, hrest⟩ := List.forall_mem_cons.1 h
    have := ih hrest
    simp only [List.map_cons, List.sum_cons, List.length_cons, Nat.mul_succ]
    omega

/-- A sequence behind a step or a branch may begin with a parallel element, which goes with no node behind there. -/
def Place.slack {n : Nat} : Place n → Nat
  | .after _ => 1
  | _ => 0

/-- There are at most two elements for each position that goes with a node. -/
theorem Unfolds.tally_le (hg : Indexes catalog nodes edges g) {place : Place g.size} {first stop : Option (Fin g.size)}
    {path : List (Fin g.size)} {es : List Element} (h : Unfolds g place first stop path es) :
    Element.tally.ofBody es ≤ 2 * g.spent es + place.slack := by
  induction h with
  | halted => exact Nat.zero_le _
  | looped _ => exact Nat.zero_le _
  | @step v first stop path rest _ _ hk _ ih =>
    have hheld := card_held_pos (v := v) (by rw [Node.isBranch, hk])
    rw [tally_stepOn, spent_stepOn]
    simp only [Place.slack] at ih ⊢
    omega
  | @choice v first stop path ids id bodies rest _ _ hk _ hbranches hkinds _ _ ihbodies ihrest =>
    have hheld := hg.length_successorsAt_lt hk
    rw [← hbranches, List.length_map] at hheld
    have hbodies := sum_map_le ihbodies
    rw [hg.tally_choiceOn hk hbranches hkinds, hg.spent_choiceOn hk hbranches hkinds]
    simp only [Place.slack] at hbodies ihrest ⊢
    omega
  | ends _ => exact Nat.zero_le _
  | follows _ _ ih => exact Nat.le_succ_of_le ih
  | @fork v first stop path id lanes rest _ _ _ _ ihlanes ihrest =>
    have hlanes := sum_map_le ihlanes
    rw [tally_parallel, spent_parallel]
    simp only [Place.slack] at hlanes ihrest ⊢
    omega
  | apart _ => exact Nat.zero_le _
  | left _ _ _ => exact Nat.zero_le _
  | resumes _ _ _ ih => exact ih

/-! ## One level at most -/

/-- No node is met twice on a straight run. -/
theorem Graph.nodup_run {stop : Option (Fin g.size)} {path : List (Fin g.size)} {v : Fin g.size} (h : path.Nodup) :
    ((g.run stop path v).1.reverse ++ path).Nodup := by
  fun_induction Graph.run g stop path v with
  | case4 path v w hs hstop hpath hk others ending hrun ih =>
    rw [hrun] at ih
    rw [List.reverse_cons, List.append_assoc]
    exact ih (List.nodup_cons.2 ⟨fun hm => hpath (List.contains_iff_mem.2 hm), h⟩)
  | _ => exact h

namespace Setting

open Build

variable {s : Setting g}

theorem steps_charges (vs : List (Fin g.size)) : Charges s.limit vs.length (s.steps vs) := by
  induction vs with
  | nil => exact charges_pure _
  | cons v rest ih =>
    rw [List.length_cons, Nat.add_comm]
    exact (step_charges v).bind fun _ => ih.bind fun _ => charges_pure _

/-- With one level at most, a sequence counts its run and nothing behind. -/
theorem unfold_after_charges_shallow {depth : Nat} (h : depth ≤ 1) (v : Fin g.size) (stop : Option (Fin g.size))
    (scope : Scope g.size) : Charges s.limit (g.run stop scope.path v).1.length (s.unfold depth (.after v) stop scope) := by
  obtain rfl | rfl : depth = 0 ∨ depth = 1 := by omega
  · exact (unfold_zero_aborts s _ stop scope).charges _ _
  · have hend : ∀ (scope : Scope g.size) (ending : RunEnd g.size), Charges s.limit 0 (atEnd (s.unfold 0) stop scope ending) := by
      intro scope ending
      cases ending with
      | done => exact charges_pure _
      | fork start => exact (unfold_zero_aborts s _ stop scope).charges _ _
      | loop source target => exact (charges_tell _).bind fun _ => charges_pure _
      | conditional next => exact (unfold_zero_aborts s _ stop scope).charges _ _
      | stray next parent => exact (unsupported_aborts _ _).charges _ _
      | unrecognized next => exact (unsupported_aborts _ _).charges _ _
    rw [unfold_after, sequence_eq]
    exact (steps_charges _).bind fun _ => (hend _ _).bind fun _ => charges_pure _

/-- With one level at most, a choice counts nothing. -/
theorem unfold_choice_charges_shallow {depth : Nat} (h : depth ≤ 1) (v : Fin g.size) (stop : Option (Fin g.size))
    (scope : Scope g.size) : Charges s.limit 0 (s.unfold depth (.choice v) stop scope) := by
  obtain rfl | rfl : depth = 0 ∨ depth = 1 := by omega
  · exact (unfold_zero_aborts s _ stop scope).charges _ _
  · by_cases hs : g.successorsAt v = []
    · have hbare : isBareChoice (.choice v) = true := List.isEmpty_iff.2 hs
      rw [unfold_bare s stop scope hbare]
      exact (unsupported_aborts _ _).charges _ _
    · have harms : (s.armBodies (s.unfold 0) v ((scope.openAt v).enter v) (g.successorsAt v)).Aborts := by
        -- the first of the bodies is too deep
        obtain ⟨branch, rest, hs⟩ := List.exists_cons_of_ne_nil hs
        rw [hs]
        unfold armBodies
        split
        · exact (unfold_zero_aborts s _ _ _).bind _
        · exact unsupported_aborts _ _
      rw [unfold_choice s stop scope hs]
      exact (announce_charges "choice" v).bind fun id => (harms.bind _).charges s.limit 0

/-- With one level at most, a compilation counts no more elements than there are nodes. -/
theorem unfoldEntry_charges_shallow (h : s.maxDepth ≤ 1) (entry : Fin g.size) :
    ∃ n, n ≤ g.size ∧ Charges s.limit n (s.unfoldEntry entry) := by
  unfold unfoldEntry
  split
  · exact ⟨0, Nat.zero_le _, unfold_choice_charges_shallow h entry none {}⟩
  · have hnd : ((g.run none [entry] entry).1.reverse ++ [entry]).Nodup := Graph.nodup_run (List.nodup_singleton entry)
    have hlength := hnd.length_le_card
    rw [List.length_append, List.length_reverse, List.length_singleton, Fintype.card_fin, Nat.add_comm] at hlength
    have hrest := unfold_after_charges_shallow (s := s) h entry none { path := [entry] }
    exact ⟨_, hlength, (step_charges entry).bind fun _ => hrest.bind fun _ => charges_pure _⟩
  · exact ⟨0, Nat.zero_le _, (unsupported_aborts _ _).charges _ _⟩

end Setting

/-- When a plan of a graph, compiled without interceptors, has no node twice, no compilation of that graph is stopped by the limit
of the elements, whatever its bound on the depth, its interceptors and the flow that it is for. -/
theorem limit_spares_plans_without_repetition (hg : Graph.build catalog nodes edges = .ok g) {c : Compiler} (hc : c.chain = [])
    {flowId : String} {route : Route} (hr : c.compileGraph flowId g = .ok route) (hnd : route.nodeIds.Nodup) :
    ∀ (c' : Compiler) (flowId' node : String) (limit : Nat), c'.compileGraph flowId' g ≠ .error (.planTooLarge node limit) := by
  intro c' flowId' node limit herror
  have hindexes := indexes_of_build hg
  obtain ⟨entry, hentry, hunfolds⟩ := Compiler.unfolds_of_compileGraph hc hr
  obtain ⟨q, hstopped⟩ : ∃ q, (c'.setting flowId' g).plan.run.run {} = (.error (.planTooLarge node limit), q) :=
    ⟨_, Prod.ext herror rfl⟩
  have hover : (c'.setting flowId' g).limit < 0 + route.size :=
    ((Compiler.charges_of_compileGraph hindexes hc hr c' flowId').stops {} node limit q hstopped).2
  have htwice : route.size ≤ 2 * g.size := Nat.le_trans (hunfolds.tally_le hindexes) (Nat.mul_le_mul_left 2 (share_le_size hnd))
  have hword : route.size ≤ Nat.pow 2 64 - 1 := Nat.le_trans (Compiler.size_le_limit hindexes hc hr) (Nat.min_le_right ..)
  -- a word counts all elements of the plan, so the bound on the depth makes for the limit
  have hlimit : (c'.setting flowId' g).limit = g.size * max c'.maxDepth 1 := by
    have hmin : (c'.setting flowId' g).limit = min (g.size * max c'.maxDepth 1) (Nat.pow 2 64 - 1) := rfl
    omega
  rw [hlimit] at hover
  by_cases hdepth : 2 ≤ c'.maxDepth
  · have hscaled : g.size * 2 ≤ g.size * max c'.maxDepth 1 := Nat.mul_le_mul_left _ (by omega)
    omega
  · obtain ⟨n, hn, hcharges⟩ := Setting.unfoldEntry_charges_shallow (s := c'.setting flowId' g)
      (Nat.le_of_lt_succ (Nat.lt_of_not_le hdepth)) entry
    have hover' := ((Setting.plan_charges hentry hcharges).stops {} node limit q hstopped).2
    have hone : max c'.maxDepth 1 = 1 := by omega
    rw [hlimit, hone, Nat.mul_one] at hover'
    exact absurd hover' (by simpa using hn)

/-- The plan of `Flow.rounds` has nine elements for seven nodes, and no node twice. -/
theorem limit_spares_plans_without_repetition_rounds : ∃ g route,
    Graph.build .standard Flow.rounds.nodes Flow.rounds.edges = .ok g ∧ g.size = 7 ∧
      Compiler.compileGraph { maxDepth := 5 } "rounds" g = .ok route ∧ route.nodeIds.Nodup ∧ route.size = 9 ∧
        ∀ (maxDepth : Nat) (node : String) (limit : Nat),
          Compiler.compileGraph { maxDepth := maxDepth } "rounds" g ≠ .error (.planTooLarge node limit) := by
  obtain ⟨g, hg, hsize, route, hr, hnd, hcount⟩ : ∃ g, Graph.build .standard Flow.rounds.nodes Flow.rounds.edges = .ok g ∧
      g.size = 7 ∧ ∃ route, Compiler.compileGraph { maxDepth := 5 } "rounds" g = .ok route ∧
        route.nodeIds.Nodup ∧ route.size = 9 := by
    decide +kernel
  exact ⟨g, route, hg, hsize, hr, hnd, hcount, fun maxDepth =>
    limit_spares_plans_without_repetition hg rfl hr hnd { maxDepth := maxDepth } "rounds"⟩

end FlowPlan
