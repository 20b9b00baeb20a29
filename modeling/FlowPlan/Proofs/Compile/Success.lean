import FlowPlan.Proofs.Compile.Headroom
import FlowPlan.Proofs.Compile.Losses
import FlowPlan.Proofs.Compile.Refusals
import FlowPlan.Proofs.Compile.Stages

/-!
# When a compilation succeeds

A graph without loops unfolds at each of its places, when every component is known and every conditional node has branches
(`Graph.Runnable.exists_unfolds`). What is unfolded takes at most two levels for each node with several successors
(`Unfolds.below_le`), and when the flow is in stages, at most two elements for each node. So with that much depth a flow in stages
compiles (`Graph.Runnable.exists_route`). When no two branch starts share a merge node, the plan has each node once
(`Graph.Runnable.nodeIds_once`).
-/

namespace FlowPlan

open FlowPlan.Graph

variable {catalog : NodeCatalog} {nodes : List Flow.Node} {edges : List Flow.Edge} {g : Graph}

/-- No loops, one entry, components that are known and conditional nodes that branch: nothing in such a graph stands against a
plan. -/
structure Graph.Runnable (g : Graph) (entry : Fin g.size) : Prop where
  acyclic : g.Acyclic
  entry_eq : g.entry = .ok entry
  recognized : ∀ v, (g.node v).kind ≠ .unrecognized
  branching : ∀ v, (g.node v).isConditional = true → 1 < (g.successorsAt v).length

/-! ## Something to unfold -/

/-- Whatever is open and wherever to stop, a plan has something at a place. -/
def Unfoldable (g : Graph) (place : Place g.size) : Prop :=
  ∀ first stop path, ∃ es, Unfolds g place first stop path es

/-- A choice for each member of a list is a list of choices. -/
theorem exists_map_eq {α β : Type} {f : β → α} {P : β → Prop} {l : List α} (h : ∀ a ∈ l, ∃ b, f b = a ∧ P b) :
    ∃ bs : List β, bs.map f = l ∧ ∀ b ∈ bs, P b := by
  induction l with
  | nil => exact ⟨[], rfl, nofun⟩
  | cons a rest ih =>
    obtain ⟨⟨b, rfl, hb⟩, hrest⟩ := List.forall_mem_cons.1 h
    obtain ⟨bs, rfl, hbs⟩ := ih hrest
    exact ⟨b :: bs, rfl, List.forall_mem_cons.2 ⟨hb, hbs⟩⟩

/-- On a finite graph without loops one can do induction against the links. -/
theorem Graph.Acyclic.wellFounded_swap (h : g.Acyclic) : WellFounded (Function.swap g.Leads) :=
  haveI : IsTrans (Fin g.size) (Function.swap g.Leads) := ⟨fun _ _ _ huv hvw => Leads.trans hvw huv⟩
  haveI : Std.Irrefl (Function.swap g.Leads) := ⟨h⟩
  Finite.wellFounded_of_trans_of_irrefl _

namespace Unfoldable

variable {v : Fin g.size}

/-- Behind an element its merge node is unfolded, unless that is left to another element. -/
theorem behind (hg : Indexes catalog nodes edges g)
    (hmerge : ∀ w, g.Leads v w → (g.node w).isBranch = false → Unfoldable g (.into w)) : Unfoldable g (.behind v) := by
  intro first stop path
  cases hm : g.pairing.mergeOf.get v with
  | none => exact ⟨[], .apart hm⟩
  | some merge =>
    by_cases hleft : 1 < (g.pairing.startsOf.get merge).length ∧ first ≠ some v
    · exact ⟨[], .left hm hleft.1 hleft.2⟩
    · obtain ⟨es, hes⟩ := hmerge merge (mergeOf_eq_some_iff.1 hm).leads (hg.not_branch_of_mergeOf hm) first stop path
      exact ⟨es, .resumes hm (fun hshared => not_not.1 fun hne => hleft ⟨hshared, hne⟩) hes⟩

/-- What follows a node is unfolded where its links lead. -/
theorem after (hlinks : ∀ w ∈ g.successorsAt v, Unfoldable g (.into w)) (hbehind : Unfoldable g (.behind v)) :
    Unfoldable g (.after v) := by
  intro first stop path
  by_cases hmany : 1 < (g.successorsAt v).length
  · obtain ⟨lanes, hsuccessors, hlanes⟩ := exists_map_eq (f := LaneBody.successor)
      (P := fun l => Unfolds g (.into l.successor) (first.or (some v)) (g.pairing.mergeOf.get v) path l.body) fun w hw =>
        (hlinks w hw _ _ _).elim fun es hes => ⟨⟨w, es⟩, rfl, hes⟩
    obtain ⟨rest, hrest⟩ := hbehind (first.or (some v)) stop path
    exact ⟨.parallel "" (LaneBody.lanes "" 0 lanes) :: rest, .fork hmany hsuccessors hlanes hrest⟩
  · rcases hs : g.successorsAt v with _ | ⟨w, _ | ⟨x, rest⟩⟩
    · exact ⟨[], .ends hs⟩
    · obtain ⟨es, hes⟩ := hlinks w (hs ▸ List.mem_singleton_self w) first stop path
      exact ⟨es, .follows hs hes⟩
    · simp [hs] at hmany

/-- Where a link leads to a node, what follows the node is unfolded behind it. -/
theorem into {entry : Fin g.size} (hg : Indexes catalog nodes edges g) (h : g.Runnable entry) (hv : (g.node v).isBranch = false)
    (hafter : (g.node v).isConditional = false → Unfoldable g (.after v)) (hbehind : Unfoldable g (.behind v))
    (harms : ∀ w ∈ g.successorsAt v, (g.node w).isBranch = true → Unfoldable g (.after w)) : Unfoldable g (.into v) := by
  intro first stop path
  by_cases hstop : stop = some v
  · exact ⟨[], hstop ▸ .halted⟩
  by_cases hpath : v ∈ path
  · exact ⟨[], .looped hpath⟩
  cases hk : (g.node v).kind with
  | plain =>
    obtain ⟨rest, hrest⟩ := hafter (not_isConditional_of_plain hk) first stop (v :: path)
    exact ⟨_, .step hstop hpath hk hrest⟩
  | conditional ids =>
    have hbranch : ∀ w ∈ g.successorsAt v, (g.node w).isBranch = true := by
      intro w hw
      refine Bool.of_not_eq_false fun hno => ?_
      have hplain := hg.not_conditional_of_successor hno hw
      rw [isConditional_of_kind hk] at hplain
      cases hplain
    obtain ⟨bodies, hbranches, hbodies⟩ := exists_map_eq (f := ArmBody.branch)
      (P := fun b => (∃ parent, (g.node b.branch).kind = .branch parent b.condition) ∧
        Unfolds g (.after b.branch) (first.or (some v)) (g.pairing.mergeOf.get v) (v :: path) b.body) fun w hw => by
      obtain ⟨parent, condition, hkw⟩ := kind_of_isBranch (hbranch w hw)
      obtain ⟨es, hes⟩ := harms w hw (hbranch w hw) (first.or (some v)) (g.pairing.mergeOf.get v) (v :: path)
      exact ⟨⟨w, condition, es⟩, rfl, ⟨parent, hkw⟩, hes⟩
    obtain ⟨rest, hrest⟩ := hbehind (first.or (some v)) stop (v :: path)
    have hsome : g.successorsAt v ≠ [] := fun hs => by
      have hmany := h.branching v (isConditional_of_kind hk)
      simp [hs] at hmany
    exact ⟨g.choiceOn "" v bodies :: rest, .choice hstop hpath hk hsome hbranches (fun b hb => (hbodies b hb).1)
      (fun b hb => (hbodies b hb).2) hrest⟩
  | branch parent condition =>
    rw [Node.isBranch, hk] at hv
    cases hv
  | unrecognized => exact absurd hk (h.recognized v)

end Unfoldable

namespace Graph.Runnable

variable {entry : Fin g.size}

/-- A graph with nothing against it unfolds at each of its nodes. -/
theorem exists_unfolds (hg : Indexes catalog nodes edges g) (h : g.Runnable entry) (v : Fin g.size) :
    Unfoldable g (.behind v) ∧ ((g.node v).isConditional = false → Unfoldable g (.after v)) ∧
      ((g.node v).isBranch = false → Unfoldable g (.into v)) := by
  induction v using h.acyclic.wellFounded_swap.induction with
  | _ v ih =>
    have hbehind : Unfoldable g (.behind v) := .behind hg fun w hw hbranch => (ih w hw).2.2 hbranch
    have hafter : (g.node v).isConditional = false → Unfoldable g (.after v) := fun hplain =>
      .after (fun w hw => (ih w (.of_mem hw)).2.2 (hg.not_branch_of_successor hplain hw)) hbehind
    refine ⟨hbehind, hafter, fun hbranch => .into hg h hbranch hafter hbehind fun w hw hb => ?_⟩
    obtain ⟨parent, condition, hk⟩ := kind_of_isBranch hb
    exact (ih w (.of_mem hw)).2.1 (not_isConditional_of_branch hk)

/-- The entry is no branch: nothing leads to it, while a branch follows its conditional node. -/
theorem not_branch_entry (hg : Indexes catalog nodes edges g) (h : g.Runnable entry) : (g.node entry).isBranch = false := by
  cases hk : (g.node entry).kind with
  | branch parent condition =>
    -- a conditional node leads to its branches, so none of them is the entry
    obtain ⟨u, -, -, -, hpred⟩ := hg.predecessors_branch hk
    rw [(entry_ok h.entry_eq entry).2 rfl] at hpred
    cases hpred
  | _ => rw [Node.isBranch, hk]

end Graph.Runnable

/-! ## Levels and branch starts -/

section Levels

open Classical in
/-- The branch starts of which a property holds. -/
noncomputable def Graph.splits (g : Graph) (P : Fin g.size → Prop) : Finset (Fin g.size) :=
  Finset.univ.filter fun v => 1 < (g.successorsAt v).length ∧ P v

/-- A node is among the splits if more than one link leaves it, and it has the property. -/
theorem Graph.mem_splits {P : Fin g.size → Prop} {v : Fin g.size} : v ∈ g.splits P ↔ 1 < (g.successorsAt v).length ∧ P v := by
  simp [Graph.splits]

/-- More nodes have a weaker property. -/
theorem Graph.card_splits_mono {P P' : Fin g.size → Prop} (h : ∀ v, P v → P' v) : (g.splits P).card ≤ (g.splits P').card :=
  Finset.card_le_card fun v hv => mem_splits.2 ((mem_splits.1 hv).imp_right (h v))

/-- A branch start is one more than those behind it. -/
theorem Graph.Acyclic.card_splits_lt (h : g.Acyclic) {v : Fin g.size} (hv : 1 < (g.successorsAt v).length) :
    (g.splits (g.Leads v)).card < (g.splits (g.Past v)).card := by
  refine Finset.card_lt_card (Finset.ssubset_iff_of_subset ?_ |>.2 ⟨v, mem_splits.2 ⟨hv, Or.inl rfl⟩, ?_⟩)
  · exact fun u hu => mem_splits.2 ((mem_splits.1 hu).imp_right Or.inr)
  · exact fun hm => h v (mem_splits.1 hm).2

/-- What takes two levels more than the branch starts behind a branch start takes two for each from there on. -/
theorem Graph.Acyclic.levels_le (h : g.Acyclic) {v : Fin g.size} (hv : 1 < (g.successorsAt v).length) {n : Nat}
    (hn : n ≤ 1 + 2 * (g.splits (g.Leads v)).card + 1) : n ≤ 2 * (g.splits (g.Past v)).card := by
  have hlt := h.card_splits_lt hv
  omega

/-- The nodes that a place can come to. -/
def Place.Reaches (g : Graph) : Place g.size → Fin g.size → Prop
  | .into v => g.Past v
  | .after v => g.Past v
  | .behind v => g.Leads v

/-- At a place at most two levels are taken for each branch start there or behind, and one for the steps in front. -/
theorem Unfolds.below_le (hacyclic : g.Acyclic) (hbranching : ∀ v, (g.node v).isConditional = true → 1 < (g.successorsAt v).length)
    {place : Place g.size} {first stop : Option (Fin g.size)} {path : List (Fin g.size)} {es : List Element}
    (h : Unfolds g place first stop path es) : (Element.descent.ofBody es).below ≤ 2 * (g.splits (place.Reaches g)).card := by
  have total_le : ∀ {es : List Element} {n}, (Element.descent.ofBody es).below ≤ n → (Element.descent.ofBody es).total ≤ 1 + n :=
    fun hbelow => Nat.add_le_add (Element.lead_le_one _) hbelow
  have behind : ∀ {v w : Fin g.size}, g.Leads v w → (g.splits (g.Past w)).card ≤ (g.splits (g.Leads v)).card :=
    fun hl => card_splits_mono fun u hu => hl.past hu
  induction h with
  | halted => exact Nat.zero_le _
  | looped _ => exact Nat.zero_le _
  | step _ _ _ _ ih =>
    rw [descent_stepOn]
    exact ih
  | @choice v first stop path ids id bodies rest _ _ hk _ hbranches _ _ _ ihbodies ihrest =>
    refine hacyclic.levels_le (hbranching v (isConditional_of_kind hk))
      (Element.below_choice_le_iff.2 ⟨fun body hb => ?_, total_le ihrest⟩)
    obtain ⟨_, hnamed, rfl⟩ := Setting.exists_mem_of_mem_bodiesOf hb
    obtain ⟨b, hmem, rfl⟩ := List.mem_map.1 hnamed
    have hb := Nat.le_trans (ihbodies b hmem) (Nat.mul_le_mul_left 2 (behind (.of_mem (hbranches ▸ List.mem_map_of_mem hmem))))
    rw [Nat.add_comm 1]
    exact Nat.succ_le_succ hb
  | ends _ => exact Nat.zero_le _
  | @follows v w _ _ _ _ hs _ ih =>
    refine Nat.le_trans ih (Nat.mul_le_mul_left 2 (card_splits_mono fun u hu => Or.inr ?_))
    exact (Leads.of_mem (hs ▸ List.mem_singleton_self w)).past hu
  | @fork v first stop path id lanes rest hmany hsuccessors _ _ ihlanes ihrest =>
    refine hacyclic.levels_le hmany (Element.below_parallel_le_iff.2 ⟨fun body hb => ?_, total_le ihrest⟩)
    rw [Element.map_body_lanes] at hb
    obtain ⟨l, hl, rfl⟩ := List.mem_map.1 hb
    have hlink : l.successor ∈ g.successorsAt v := hsuccessors ▸ List.mem_map_of_mem hl
    exact total_le (Nat.le_trans (ihlanes l hl) (Nat.mul_le_mul_left 2 (behind (.of_mem hlink))))
  | apart _ => exact Nat.zero_le _
  | left _ _ _ => exact Nat.zero_le _
  | resumes hm _ _ ih => exact Nat.le_trans ih (Nat.mul_le_mul_left 2 (behind (mergeOf_eq_some_iff.1 hm).leads))

end Levels

/-! ## A plan -/

namespace Graph.Runnable

variable {entry : Fin g.size} {c : Compiler} {flowId : String}

section Limits

variable {es : List Element}

/-- With two levels for each branch start, and one more, a compilation does not run out of depth. -/
theorem ne_graphTooDeep (hg : Indexes catalog nodes edges g) (h : g.Runnable entry)
    (hes : Unfolds g (.into entry) none none [] es) (hdepth : 2 * (g.splits fun _ => True).card + 1 ≤ c.maxDepth) (node : String)
    (depth : Nat) : c.compileGraph flowId g ≠ .error (.graphTooDeep node depth) := by
  refine Compiler.compileGraph_ne_graphTooDeep (fun v f hv hf => ?_) node depth
  rw [h.entry_eq] at hv
  cases hv
  have hends := (hes.suffices hg (s := c.setting flowId g) {} rfl rfl).begins nofun List.not_mem_nil hf
  have hlead := Element.lead_le_one es
  have hbelow := hes.below_le h.acyclic h.branching
  have hall : (g.splits (g.Past entry)).card ≤ (g.splits fun _ => True).card := card_splits_mono fun _ _ => trivial
  refine hends.mono ?_
  simp only [Place.Reaches, Element.Descent.total] at hbelow ⊢
  omega

/-- When no node is unfolded twice, a compilation is not stopped by the limit of the elements. -/
theorem ne_planTooLarge (hg : Indexes catalog nodes edges g) (h : g.Runnable entry)
    (hes : Unfolds g (.into entry) none none [] es) (hnd : ((Element.nodesOfBody es).map Step.id).Nodup)
    (hsize : g.size < Nat.pow 2 63) (node : String) (limit : Nat) :
    c.compileGraph flowId g ≠ .error (.planTooLarge node limit) := by
  intro herror
  obtain ⟨q, hstopped⟩ : ∃ q, (c.setting flowId g).plan.run.run {} = (.error (.planTooLarge node limit), q) :=
    ⟨_, Prod.ext herror rfl⟩
  have exceeds : ∀ n, Build.Charges (c.setting flowId g).limit n ((c.setting flowId g).unfoldEntry entry) →
      (c.setting flowId g).limit < n := by
    intro n hcharges
    have hover := ((Setting.plan_charges h.entry_eq hcharges).stops {} node limit q hstopped).2
    rwa [show ({} : Progress).emitted = 0 from rfl, Nat.zero_add] at hover
  have hlimit : (c.setting flowId g).limit = min (g.size * max c.maxDepth 1) (Nat.pow 2 64 - 1) := rfl
  have hword : 2 * g.size ≤ Nat.pow 2 64 - 1 := by
    have hdouble : Nat.pow 2 64 = 2 * Nat.pow 2 63 := by decide
    omega
  by_cases hdepth : 2 ≤ c.maxDepth
  · have hcount := exceeds _ (Setting.unfoldEntry_charges (hes.charged hg (s := c.setting flowId g) {} rfl rfl))
    have htwice : Element.tally.ofBody es ≤ 2 * g.size :=
      Nat.le_trans (hes.tally_le hg) (Nat.mul_le_mul_left 2 (share_le_size hnd))
    have hscaled : g.size * 2 ≤ g.size * max c.maxDepth 1 := Nat.mul_le_mul_left _ (by omega)
    omega
  · obtain ⟨n, hn, hcharges⟩ := Setting.unfoldEntry_charges_shallow (s := c.setting flowId g)
      (Nat.le_of_lt_succ (Nat.lt_of_not_le hdepth)) entry
    have hcount := exceeds n hcharges
    have hone : max c.maxDepth 1 = 1 := by omega
    rw [hone, Nat.mul_one] at hlimit
    omega

end Limits

/-- A flow in stages with nothing against it compiles, with two levels of depth for each branch start, and one more. -/
theorem exists_route (hg : Indexes catalog nodes edges g) (h : g.Runnable entry) (hstaged : g.Staged)
    (hdepth : 2 * (g.splits fun _ => True).card + 1 ≤ c.maxDepth) (hsize : g.size < Nat.pow 2 63) :
    ∃ route, c.compileGraph flowId g = .ok route := by
  obtain ⟨es, hes⟩ := (h.exists_unfolds hg entry).2.2 (h.not_branch_entry hg) none none []
  have hnd := hes.nodup hg h.acyclic hstaged h.branching (.entry entry)
  cases hr : c.compileGraph flowId g with
  | ok route => exact ⟨route, rfl⟩
  | error e =>
    exfalso
    cases Compiler.explains_of_compileGraph hg hr with
    | noEntry hnone =>
      rw [h.entry_eq] at hnone
      cases hnone
    | limit hlimit =>
      cases e with
      | graphTooDeep node depth => exact h.ne_graphTooDeep hg hes hdepth node depth hr
      | planTooLarge node limit => exact h.ne_planTooLarge hg hes hnd hsize node limit hr
      | _ => cases hlimit
    | entry _ hk => exact h.recognized _ hk
    | unrecognized _ hk => exact h.recognized _ hk
    | @bare v _ hk =>
      obtain ⟨n, -, -, hids, -, hmatch⟩ := hg.successors_conditional hk
      have hmany := h.branching v (isConditional_of_kind hk)
      rw [hmatch.length_eq, ← List.length_map (f := (·.id)), ← hids] at hmany
      cases hmany

/-- When no merge node is shared, a plan of a flow in stages, compiled without interceptors, has each node once. -/
theorem nodeIds_once (hg : Indexes catalog nodes edges g) (h : g.Runnable entry) (hstaged : g.Staged)
    (hshared : ∀ e, ¬ g.Shared e) (hc : c.chain = []) {route : Route} (hr : c.compileGraph flowId g = .ok route) :
    route.nodeIds.Perm (nodes.map (·.id)) := by
  obtain ⟨start, hstart, hunfolds⟩ := Compiler.unfolds_of_compileGraph hc hr
  have hnodup : route.nodeIds.Nodup := hunfolds.nodup hg h.acyclic hstaged h.branching (.entry start)
  have hdeclared := hg.nodup_declared
  rw [← hg.map_idAt_declared] at hdeclared ⊢
  refine (List.perm_ext_iff_of_nodup hnodup hdeclared).2 fun id => ?_
  constructor
  · intro hid
    obtain ⟨u, rfl, hu⟩ := hunfolds.exists_of_mem hg hid
    exact List.mem_map_of_mem (List.mem_filter.2 ⟨List.mem_finRange u, by rw [hu]; rfl⟩)
  · intro hid
    obtain ⟨u, hu, rfl⟩ := List.mem_map.1 hid
    have hbranch : (g.node u).isBranch = false := by simpa using (List.mem_filter.1 hu).2
    exact hunfolds.emits_all hg h.acyclic hstart (fun e he => absurd he (hshared e)) u hbranch

end Graph.Runnable

end FlowPlan
