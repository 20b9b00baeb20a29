import FlowPlan.Proofs.Compile.Coverage
import FlowPlan.Proofs.Compile.Limits
import FlowPlan.Proofs.Compile.Termination
import FlowPlan.Proofs.Graph.Reconvergence

/-!
# What a compilation refuses

`Graph.Explains` lists the errors that the flow as it is written accounts for: no single entry, a limit that is reached, or a
node behind the entry that the catalog does not recognize or that is conditional and has no branches. A compilation has no others
(`Compiler.explains_of_compileGraph`). The rest of what a frame may refuse a node for (`Frame.Refuses`) does not come up, since
every frame is `Frame.Lawful` and a branch of a conditional node follows nothing but that node.
-/

namespace FlowPlan

open FlowPlan.Graph Relation

variable {catalog : NodeCatalog} {nodes : List Flow.Node} {edges : List Flow.Edge} {g : Graph}

/-! ## Nodes behind the entry -/

namespace Graph

/-- A node is the entry, or links lead from the entry to it. -/
def Reached (g : Graph) (v : Fin g.size) : Prop :=
  ∃ entry, g.entry = .ok entry ∧ ReflTransGen g.adjacency.Links entry v

/-- The entry is reached without a link. -/
theorem Reached.entry {v : Fin g.size} (h : g.entry = .ok v) : g.Reached v :=
  ⟨v, h, .refl⟩

/-- Links lead on from a node that is reached. -/
theorem Reached.trans {v w : Fin g.size} (h : g.Reached v) (hl : ReflTransGen g.adjacency.Links v w) : g.Reached w := by
  obtain ⟨entry, he, hv⟩ := h
  exact ⟨entry, he, hv.trans hl⟩

theorem Reached.link {v w : Fin g.size} (h : g.Reached v) (hl : w ∈ g.successorsAt v) : g.Reached w :=
  h.trans (.single hl)

/-- A merge node is reached from its branch starts. -/
theorem Reached.merge {v merge : Fin g.size} (h : g.Reached v) (hm : g.pairing.mergeOf.get v = some merge) : g.Reached merge :=
  h.trans (mergeOf_eq_some_iff.1 hm).leads.to_reflTransGen

/-- The errors that the flow as it is written accounts for. -/
inductive Explains (g : Graph) : CompileError → Prop
  | noEntry {candidates} : g.entry = .error (.noEntryNode candidates) → Explains g (.noEntryNode candidates)
  | limit {e} : e.isLimit = true → Explains g e
  | entry {v} : g.entry = .ok v → (g.node v).kind = .unrecognized → Explains g (Setting.unsupported v .entryNotRunnable)
  | unrecognized {v} : g.Reached v → (g.node v).kind = .unrecognized →
      Explains g (Setting.unsupported v (.unrecognized (g.node v).component))
  | bare {v} : g.Reached v → (g.node v).kind = .conditional [] → Explains g (Setting.unsupported v .noBranches)

namespace Indexes

/-- Only a conditional node leads to a branch. -/
theorem not_branch_of_successor (h : Indexes catalog nodes edges g) {v w : Fin g.size} (hv : (g.node v).isConditional = false)
    (hl : w ∈ g.successorsAt v) : (g.node w).isBranch = false := by
  cases hk : (g.node w).kind with
  | branch parent condition =>
    obtain ⟨u, ids, -, hu, hpred⟩ := h.predecessors_branch hk
    have hmem := h.mem_predecessorsAt_iff.2 hl
    rw [hpred, List.mem_singleton] at hmem
    rw [hmem, isConditional_of_kind hu] at hv
    cases hv
  | _ => rw [Node.isBranch, hk]

/-- A conditional node that leads nowhere declares no branches. -/
theorem kind_of_bare (h : Indexes catalog nodes edges g) {v : Fin g.size} (hv : (g.node v).isConditional = true)
    (hs : g.successorsAt v = []) : (g.node v).kind = .conditional [] := by
  obtain ⟨ids, hk⟩ := kind_of_isConditional hv
  obtain ⟨n, -, -, hids, -, hbranches⟩ := h.successors_conditional hk
  rw [hs] at hbranches
  rw [hk, hids, List.forall₂_nil_left_iff.1 hbranches]
  rfl

/-- A merge node is no branch. -/
theorem not_branch_of_mergeOf (h : Indexes catalog nodes edges g) {v merge : Fin g.size}
    (hm : g.pairing.mergeOf.get v = some merge) : (g.node merge).isBranch = false :=
  h.not_branch_of_ends (mergeOf_eq_some_iff.1 hm).ends

end Indexes

/-- What may end a straight run from a node that is not conditional. A branch of a conditional node does not. -/
inductive EndsRun (g : Graph) (v : Fin g.size) : RunEnd g.size → Prop
  | done : EndsRun g v .done
  | loop {source target} : EndsRun g v (.loop source target)
  | fork {start} : ReflTransGen g.adjacency.Links v start → (g.node start).isConditional = false → EndsRun g v (.fork start)
  | conditional {next} : ReflTransGen g.adjacency.Links v next → (g.node next).isConditional = true →
      EndsRun g v (.conditional next)
  | unrecognized {next} : ReflTransGen g.adjacency.Links v next → (g.node next).kind = .unrecognized →
      EndsRun g v (.unrecognized next)

/-- What may end a run behind a successor may end it behind the node. -/
theorem EndsRun.head {v w : Fin g.size} {ending : RunEnd g.size} (hl : w ∈ g.successorsAt v) (h : g.EndsRun w ending) :
    g.EndsRun v ending := by
  cases h with
  | done => exact .done
  | loop => exact .loop
  | fork hr hk => exact .fork (.head hl hr) hk
  | conditional hr hk => exact .conditional (.head hl hr) hk
  | unrecognized hr hk => exact .unrecognized (.head hl hr) hk

/-- Every run from a node that is not conditional ends so, by induction on the run. -/
theorem Indexes.endsRun (h : Indexes catalog nodes edges g) {v : Fin g.size} (hv : (g.node v).isConditional = false)
    (stop : Option (Fin g.size)) (path : List (Fin g.size)) : g.EndsRun v (g.run stop path v).2 := by
  fun_induction Graph.run g stop path v with
  | case1 path v hs => exact .done
  | case2 path v w hs hstop => exact .done
  | case3 path v w hs hstop hpath => exact .loop
  | case4 path v w hs hstop hpath hk others ending hrun ih =>
    rw [hrun] at ih
    exact (ih (not_isConditional_of_plain hk)).head (by rw [hs]; exact List.mem_singleton_self w)
  | case5 path v w hs hstop hpath ids hk =>
    have hl : w ∈ g.successorsAt v := by rw [hs]; exact List.mem_singleton_self w
    exact .conditional (.single hl) (isConditional_of_kind hk)
  | case6 path v w hs hstop hpath parent condition hk =>
    have hbranch := h.not_branch_of_successor hv (w := w) (by rw [hs]; exact List.mem_singleton_self w)
    rw [Node.isBranch, hk] at hbranch
    cases hbranch
  | case7 path v w hs hstop hpath hk =>
    have hl : w ∈ g.successorsAt v := by rw [hs]; exact List.mem_singleton_self w
    exact .unrecognized (.single hl) hk
  | case8 path v hnil hone => exact .fork .refl hv

end Graph

/-! ## Lawful frames -/

def Segment.isChoice {n : Nat} : Segment n → Bool
  | .choice _ => true
  | _ => false

namespace Frame

/-- A frame stands behind the entry, and is one of a choice just when its node is conditional. -/
structure Lawful (f : Frame g.size) : Prop where
  reached : g.Reached f.segment.node
  kind : (g.node f.segment.node).isConditional = f.segment.isChoice

theorem Lawful.endsRun (hg : Indexes catalog nodes edges g) {v : Fin g.size} {stop : Option (Fin g.size)} {scope : Scope g.size}
    (h : Lawful ⟨.after v, stop, scope⟩) : g.EndsRun v (g.run stop scope.path v).2 :=
  hg.endsRun h.kind stop scope.path

/-- The node of a lawful choice is conditional. -/
theorem Lawful.isConditional {v : Fin g.size} {stop : Option (Fin g.size)} {scope : Scope g.size}
    (h : Lawful ⟨.choice v, stop, scope⟩) : (g.node v).isConditional = true :=
  h.kind

variable {stop : Option (Fin g.size)} {scope : Scope g.size} {v : Fin g.size} {f f' : Frame g.size}

/-- What begins at a node that is reached is lawful. -/
theorem Begins.lawful (h : Begins g stop scope v f) (hv : g.Reached v) : f.Lawful := by
  cases h with
  | plain hk => exact ⟨hv, not_isConditional_of_plain hk⟩
  | conditional hk => exact ⟨hv, isConditional_of_kind hk⟩

/-- So is what continues a structure whose start is reached. -/
theorem Continues.lawful (h : Continues g v stop scope f) (hv : g.Reached v) : f.Lawful := by
  obtain ⟨hm, -, -, -, hbegins⟩ := h
  exact hbegins.lawful (hv.merge hm)

/-- A lawful frame calls for lawful frames. -/
theorem Calls.lawful (hg : Indexes catalog nodes edges g) (h : f.Calls g f') (hf : f.Lawful) : f'.Lawful := by
  cases h with
  | @sequence v stop scope segment hend =>
    have hends := hf.endsRun hg
    generalize (g.run stop scope.path v).2 = ending at hend hends
    cases hends with
    | done => cases hend
    | loop => cases hend
    | fork hl hk =>
      cases hend
      exact ⟨hf.reached.trans hl, hk⟩
    | conditional hl hk =>
      cases hend
      exact ⟨hf.reached.trans hl, hk⟩
    | unrecognized hl hk => cases hend
  | arm hb hk => exact ⟨hf.reached.link hb, not_isConditional_of_branch hk⟩
  | behindChoice hcontinues => exact hcontinues.lawful hf.reached
  | lane hw _ _ hbegins => exact hbegins.lawful (hf.reached.link hw)
  | behindFork hcontinues => exact hcontinues.lawful hf.reached

/-- A node that is no branch is rejected for its component only. -/
theorem Rejects.explains {stray : String → Obstacle} {e : CompileError} (h : Rejects g stray v e)
    (hbranch : (g.node v).isBranch = false) (hv : g.Reached v) : g.Explains e := by
  cases h with
  | branch hk =>
    rw [Node.isBranch, hk] at hbranch
    cases hbranch
  | unrecognized hk => exact .unrecognized hv hk

/-- A lawful frame refuses nodes only for what the flow accounts for. -/
theorem Refuses.explains (hg : Indexes catalog nodes edges g) {e : CompileError} (h : f.Refuses g e) (hf : f.Lawful) :
    g.Explains e := by
  cases h with
  | stray hend =>
    have hends := hf.endsRun hg
    rw [hend] at hends
    cases hends
  | unrecognized hend =>
    have hends := hf.endsRun hg
    rw [hend] at hends
    cases hends with
    | unrecognized hl hk => exact .unrecognized (hf.reached.trans hl) hk
  | bare hs => exact .bare hf.reached (hg.kind_of_bare hf.isConditional hs)
  | foreign hw hk =>
    have hplain := hg.not_conditional_of_successor hk hw
    rw [hf.isConditional] at hplain
    cases hplain
  | behindChoice hm hr => exact hr.explains (hg.not_branch_of_mergeOf hm) (hf.reached.merge hm)
  | lane hw hr => exact hr.explains (hg.not_branch_of_successor hf.kind hw) (hf.reached.link hw)
  | behindFork hm hr => exact hr.explains (hg.not_branch_of_mergeOf hm) (hf.reached.merge hm)

end Frame

/-! ## Failures -/

/-- When the first part fails, then with an error that has the property. -/
def Build.FailsWith (P : CompileError → Prop) (α : Type) (m _m' : Build α) : Prop :=
  ∀ p e q, m.run.run p = (.error e, q) → P e

/-- Errors with the property stay the only ones when parts are put together. -/
theorem Build.congruence_failsWith (P : CompileError → Prop) : Congruence P (FailsWith P) where
  pure _ := nofun
  bind := by
    intro α β m m' k k' hm hk p e r h
    rw [run_bind] at h
    rcases hrun : m.run.run p with ⟨a | a, q⟩ <;> rw [hrun] at h
    · cases h
      exact hm p e r hrun
    · exact hk a q e r h
  throw h := by
    rintro p _ _ ⟨⟩
    exact h
  tell _ := nofun
  nextNumber := nofun

namespace Setting

/-- Errors of counting are errors of the limit, which need no explanation. -/
theorem alike_explains {s : Setting g} : Alike (Build.FailsWith g.Explains) s s := by
  refine ⟨rfl, rfl, fun v p e q h => ?_⟩
  unfold count at h
  rw [Build.run_count] at h
  split at h <;> cases h
  exact .limit rfl

/-- The unfolding of a lawful frame fails only with what the flow accounts for. -/
theorem unfold_explains (hg : Indexes catalog nodes edges g) {s : Setting g} (depth : Nat)
    {f : Frame g.size} (hf : f.Lawful) :
    Build.FailsWith g.Explains _ (f.unfoldBy (s.unfold depth)) (f.unfoldBy (s.unfold depth)) := by
  have hQ := Build.congruence_failsWith g.Explains
  induction depth generalizing f with
  | zero =>
    obtain ⟨segment, stop, scope⟩ := f
    unfold Frame.unfoldBy
    cases hbare : isBareChoice segment with
    | true =>
      rw [unfold_bare s stop scope hbare]
      exact hQ.throw ((Frame.Refuses.of_bare hbare stop scope).explains hg hf)
    | false =>
      rw [unfold_zero s stop scope hbare]
      exact hQ.throw (.limit rfl)
  | succ depth ih =>
    exact unfold_congruent hQ alike_explains (fun e he => he.explains hg hf) fun f' hf' => ih (hf'.lawful hg hf)

end Setting

/-- An error of a compilation is one that the flow as it is written accounts for. -/
theorem Compiler.explains_of_compileGraph (hg : Indexes catalog nodes edges g) {c : Compiler} {flowId : String} {e : CompileError}
    (he : c.compileGraph flowId g = .error e) : g.Explains e := by
  have hplan := Setting.plan_congruent (Build.congruence_failsWith g.Explains)
    (Setting.alike_explains (s := c.setting flowId g)) (fun _ => .noEntry) (fun v hv hnot => ?_) fun v f hv hf => Setting.unfold_explains hg _ (hf.lawful (.entry hv))
  · exact hplan {} e _ (Prod.ext he rfl)
  · cases hk : (g.node v).kind with
    | plain => exact absurd (.plain hk) (hnot _)
    | conditional ids => exact absurd (.conditional hk) (hnot _)
    | branch parent condition =>
      -- a conditional node leads to its branches, so none of them is the entry
      obtain ⟨u, -, -, -, hpred⟩ := hg.predecessors_branch hk
      rw [(entry_ok hv v).2 rfl] at hpred
      cases hpred
    | unrecognized => exact .entry hv hk

/-- A compilation refuses a node only for what the author of the flow did, on every graph, with loops or without, and under every
bound on the depth: the node is the entry or can be reached from it, and the catalog does not recognize it, or it is conditional
and has no branches. No branch is met outside its conditional node, nothing but its branches follows a conditional node, and merge
nodes are in the graph and are no branches. -/
theorem unsupported_shapes_are_authored (hg : Graph.build catalog nodes edges = .ok g) :
    (∀ (c : Compiler) (flowId node : String) (obstacle : Obstacle),
      c.compileGraph flowId g = .error (.unsupportedShape node obstacle) →
        ∃ entry x, g.entry.map g.idAt = .ok entry ∧ ReflTransGen (fun v w => w ∈ g.successors v) entry node ∧
          g.node? node = some x ∧
            (x.kind = .unrecognized ∧ (obstacle = .unrecognized x.component ∨ obstacle = .entryNotRunnable ∧ node = entry) ∨
              x.kind = .conditional [] ∧ obstacle = .noBranches)) ∧
      ∀ start merge, g.branchEnd? start = some merge → ∃ x, g.node? merge = some x ∧ x.isBranch = false := by
  have h := indexes_of_build hg
  have hreached : ∀ v, g.Reached v → ∃ entry, g.entry.map g.idAt = .ok entry ∧
      ReflTransGen (fun v w => w ∈ g.successors v) entry (g.idAt v) := by
    rintro v ⟨entry, he, hl⟩
    refine ⟨g.idAt entry, by rw [he]; rfl, hl.lift g.idAt fun u w hw => h.mem_successors_idAt.2 hw⟩
  refine ⟨fun c flowId node obstacle herror => ?_, fun start merge hm => ?_⟩
  · cases Compiler.explains_of_compileGraph h herror with
    | limit hlimit => cases hlimit
    | @entry v hv hk =>
      exact ⟨g.idAt v, g.node v, by rw [hv]; rfl, .refl, h.node?_idAt v, Or.inl ⟨hk, Or.inr ⟨rfl, rfl⟩⟩⟩
    | @unrecognized v hv hk =>
      obtain ⟨entry, he, hl⟩ := hreached v hv
      exact ⟨entry, g.node v, he, hl, h.node?_idAt v, Or.inl ⟨hk, Or.inl rfl⟩⟩
    | @bare v hv hk =>
      obtain ⟨entry, he, hl⟩ := hreached v hv
      exact ⟨entry, g.node v, he, hl, h.node?_idAt v, Or.inr ⟨hk, rfl⟩⟩
  · obtain ⟨v, -, hv⟩ := Option.bind_eq_some_iff.1 hm
    obtain ⟨w, hw, rfl⟩ := Option.map_eq_some_iff.1 hv
    exact ⟨g.node w, h.node?_idAt w, h.not_branch_of_mergeOf hw⟩

/-- A loop from C back to B, and behind it a node whose component is misspelt. -/
def Flow.misspelt : Flow where
  id := "misspelt"
  nodes := [("A", "script"), ("B", "script"), ("C", "script"), ("D", "scirpt")].map
    fun (id, component) => { id := id, component := component }
  edges := [("A", "B"), ("B", "C"), ("C", "B"), ("C", "D")].map fun (source, target) => { source := source, target := target }

/-- The compilation of `Flow.misspelt` refuses D, which can be reached from A. -/
theorem unsupported_shapes_are_authored_misspelt : ∃ g, Graph.build .standard Flow.misspelt.nodes Flow.misspelt.edges = .ok g ∧
    Compiler.compileGraph {} "misspelt" g = .error (.unsupportedShape "D" (.unrecognized "scirpt")) ∧
      (∃ entry, g.entry.map g.idAt = .ok entry ∧ ReflTransGen (fun v w => w ∈ g.successors v) entry "D") ∧
        ∃ x, g.node? "B" = some x ∧ x.isBranch = false := by
  obtain ⟨g, hg, hend, herror⟩ : ∃ g, Graph.build .standard Flow.misspelt.nodes Flow.misspelt.edges = .ok g ∧
      g.branchEnd? "C" = some "B" ∧
        Compiler.compileGraph {} "misspelt" g = .error (.unsupportedShape "D" (.unrecognized "scirpt")) := by
    decide +kernel
  obtain ⟨hrefusals, hmerges⟩ := unsupported_shapes_are_authored hg
  obtain ⟨entry, x, hentry, hreached, -, -⟩ := hrefusals {} "misspelt" "D" (.unrecognized "scirpt") herror
  exact ⟨g, hg, herror, ⟨entry, hentry, hreached⟩, hmerges "C" "B" hend⟩

end FlowPlan
