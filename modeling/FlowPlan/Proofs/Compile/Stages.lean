import FlowPlan.Proofs.Compile.Bodies

/-!
# Flows in stages

A flow is in stages when its merge nodes stand one behind the other: every path from the entry to a merge node goes through the
ones before it. Then links enter what follows a merge node at that node only (`Graph.Staged`). If, besides, every conditional node
has two branches or more, the bodies of an element share no node with each other or with what follows the element
(`Unfolds.nodup`); and if several branch starts share the first merge node at most, nothing is left out. So the plan has each node
of the flow exactly once (`nodeIds_perm`).
-/

namespace FlowPlan

open FlowPlan.Graph Relation

/-! ## Paths and stages -/

namespace Graph

/-- A path, by ids, along links from `v` to `w`. -/
inductive Path (g : Graph) (v : String) : (w : String) → List String → Prop
  | here : Path g v v [v]
  | step {u w p} : Path g v u p → w ∈ g.successors u → Path g v w (p ++ [w])

/-- A node is `e` or comes after it. -/
def Past (g : Graph) (e u : Fin g.size) : Prop :=
  u = e ∨ g.Leads e u

/-- Links enter what follows a merge node at that node only, and a later merge node follows an earlier one. -/
structure Staged (g : Graph) : Prop where
  entered : ∀ e, 1 < (g.predecessorsAt e).length → g.EntersAt e (g.Past e)
  ordered : ∀ e m, 1 < (g.predecessorsAt e).length → 1 < (g.predecessorsAt m).length → e ≤ m → g.Past e m

variable {catalog : NodeCatalog} {nodes : List Flow.Node} {edges : List Flow.Edge} {g : Graph}

/-- What comes after a node that is past `e` comes after `e`. -/
theorem Past.tail {e u w : Fin g.size} (h : g.Past e u) (hl : g.Leads u w) : g.Leads e w := by
  rcases h with rfl | h
  · exact hl
  · exact h.trans hl

/-- What is past a node that `v` leads to is past `v`. -/
theorem Leads.past {v w u : Fin g.size} (h : g.Leads v w) (hu : g.Past w u) : g.Leads v u := by
  rcases hu with rfl | hu
  · exact h
  · exact h.trans hu

theorem Past.trans {e m u : Fin g.size} (h : g.Past e m) (h' : g.Past m u) : g.Past e u := by
  rcases h' with rfl | h'
  · exact h
  · exact Or.inr (h.tail h')

/-- A path holds a path to each of its nodes. -/
theorem Path.before {v w x : String} {p : List String} (h : g.Path v w p) (hx : x ∈ p) : ∃ q, g.Path v x q ∧ q ⊆ p := by
  induction h with
  | here =>
    obtain rfl := List.mem_singleton.1 hx
    exact ⟨[x], .here, List.Subset.refl _⟩
  | @step u w p hp hw ih =>
    rcases List.mem_append.1 hx with hx | hx
    · obtain ⟨q, hq, hsub⟩ := ih hx
      exact ⟨q, hq, List.subset_append_of_subset_left _ hsub⟩
    · obtain rfl := List.mem_singleton.1 hx
      exact ⟨p ++ [x], .step hp hw, List.Subset.refl _⟩

theorem Path.mem_last {v w : String} {p : List String} (h : g.Path v w p) : w ∈ p := by
  cases h with
  | here => exact List.mem_singleton_self v
  | step _ _ => exact List.mem_append_right _ (List.mem_singleton_self w)

namespace Indexes

/-- What is on every path to the predecessors of a node is on every path to it. -/
theorem mem_path_of_predecessors (h : Indexes catalog nodes edges g) {v w e : String} (hne : w ≠ v)
    (hall : ∀ u ∈ g.predecessors w, ∀ p, g.Path v u p → e ∈ p) {p : List String} (hp : g.Path v w p) : e ∈ p := by
  cases hp with
  | here => exact absurd rfl hne
  | step hp hw => exact List.mem_append_left _ (hall _ (h.mem_predecessors_iff.2 hw) _ hp)

/-- Along the links from `v` to `w` there is a path. -/
theorem exists_path (h : Indexes catalog nodes edges g) {v w : Fin g.size} (hw : g.Past v w) :
    ∃ p, g.Path (g.idAt v) (g.idAt w) p := by
  rcases hw with rfl | hl
  · exact ⟨_, .here⟩
  · induction hl with
    | single hl => exact ⟨_, .step .here (h.mem_successors_idAt.2 hl)⟩
    | tail _ hl ih =>
      obtain ⟨p, hp⟩ := ih
      exact ⟨_, .step hp (h.mem_successors_idAt.2 hl)⟩

/-- A node on a path comes before its end. -/
theorem past_of_mem_path (h : Indexes catalog nodes edges g) {v x w : Fin g.size} {p : List String}
    (hp : g.Path (g.idAt v) (g.idAt w) p) (hx : g.idAt x ∈ p) : g.Past x w := by
  generalize hv : g.idAt v = start, hw : g.idAt w = last at hp
  induction hp generalizing w with
  | here =>
    rw [← hw, List.mem_singleton, h.idAt_inj] at hx
    exact Or.inl hx.symm
  | @step u _ p _ hu ih =>
    rcases List.mem_append.1 hx with hbefore | hlast
    · obtain ⟨u, rfl⟩ : ∃ y, g.idAt y = u := by
        cases hf : g.find? u with
        | none =>
          rw [successors, hf] at hu
          cases hu
        | some y => exact ⟨y, h.find?_eq_some_iff.1 hf⟩
      subst hw
      exact Or.inr ((ih hbefore rfl).tail (.of_mem (h.mem_successors_idAt.1 hu)))
    · subst hw
      rw [List.mem_singleton, h.idAt_inj] at hlast
      exact Or.inl hlast.symm

/-- The first merge node in the order of the declaration is the first one in the order of registration. -/
theorem le_of_head?_ends (h : Indexes catalog nodes edges g) {e m : Fin g.size}
    (he : ((nodes.map (·.id)).filter g.isBranchEnd).head? = some (g.idAt e)) (hm : 1 < (g.predecessorsAt m).length) : e ≤ m := by
  have ascending := (List.pairwise_lt_finRange g.size).filter fun v => decide (1 < (g.predecessorsAt v).length)
  have hmem : m ∈ g.vertices.filter fun v => decide (1 < (g.predecessorsAt v).length) :=
    List.mem_filter.2 ⟨List.mem_finRange m, decide_eq_true hm⟩
  rw [← h.map_idAt_ends] at he
  rw [← vertices] at ascending
  rcases hl : g.vertices.filter fun v => decide (1 < (g.predecessorsAt v).length) with _ | ⟨x, rest⟩
  · rw [hl] at he
    cases he
  · rw [hl] at he hmem ascending
    obtain rfl := h.ids_injective (Option.some.inj he)
    rcases List.mem_cons.1 hmem with rfl | hmem
    · exact Fin.le_refl _
    · exact Fin.le_of_lt ((List.pairwise_cons.1 ascending).1 m hmem)

/-- When every path from the entry to a merge node goes through the one before it, the graph is in stages. -/
theorem staged (h : Indexes catalog nodes edges g) (hacyclic : g.Acyclic) {entry : Fin g.size} (hentry : g.entry = .ok entry)
    (hstages : ((nodes.map (·.id)).filter g.isBranchEnd).IsChain fun e e' => ∀ p, g.Path (g.idAt entry) e' p → e ∈ p) :
    g.Staged := by
  have reached : ∀ v, g.Past entry v := hacyclic.entry_leads h hentry
  have through : ∀ e m, 1 < (g.predecessorsAt e).length → 1 < (g.predecessorsAt m).length → e < m →
      ∀ p, g.Path (g.idAt entry) (g.idAt m) p → g.idAt e ∈ p := by
    have htrans : IsTrans String fun e e' => ∀ p, g.Path (g.idAt entry) e' p → e ∈ p := by
      refine ⟨fun a b c hab hbc p hp => ?_⟩
      obtain ⟨q, hq, hsub⟩ := hp.before (hbc p hp)
      exact hsub (hab q hq)
    rw [← h.map_idAt_ends, List.isChain_iff_pairwise, List.pairwise_map] at hstages
    have ascending := (List.pairwise_lt_finRange g.size).filter fun v => decide (1 < (g.predecessorsAt v).length)
    intro e m he hm hlt
    exact MergingAux.rel_of_lt ascending hstages (List.mem_filter.2 ⟨List.mem_finRange e, decide_eq_true he⟩)
      (List.mem_filter.2 ⟨List.mem_finRange m, decide_eq_true hm⟩) hlt
  have ordered : ∀ e m, 1 < (g.predecessorsAt e).length → 1 < (g.predecessorsAt m).length → e ≤ m → g.Past e m := by
    intro e m he hm hle
    rcases Fin.lt_or_eq_of_le hle with hlt | rfl
    · obtain ⟨p, hp⟩ := h.exists_path (reached m)
      exact h.past_of_mem_path hp (through e m he hm hlt p hp)
    · exact Or.inl rfl
  refine ⟨?_, ordered⟩
  rintro e he v w hl (rfl | hew)
  · exact Or.inl rfl
  by_cases hv : g.Past e v
  · exact Or.inr hv
  -- another link leads from what follows `e` to `w`, so `w` is a later merge node
  obtain ⟨u, hu, huw⟩ := TransGen.tail'_iff.1 hew
  have hne : u ≠ v := by
    rintro rfl
    exact hv (reflTransGen_iff_eq_or_transGen.1 hu)
  have hw : 1 < (g.predecessorsAt w).length :=
    MergingAux.one_lt_length (h.mem_predecessorsAt_iff.2 huw) (h.mem_predecessorsAt_iff.2 hl) hne
  have hlt : e < w := by
    refine Fin.not_le.1 fun hle => ?_
    exact hacyclic e ((ordered w e hw he hle).elim (fun heq => heq ▸ hew) hew.trans)
  obtain ⟨p, hp⟩ := h.exists_path (reached v)
  have hmem := through e w he hw hlt _ (.step hp (h.mem_successors_idAt.2 hl))
  rcases List.mem_append.1 hmem with hmem | hmem
  · exact absurd (h.past_of_mem_path hp hmem) hv
  · rw [List.mem_singleton, h.idAt_inj] at hmem
    exact Or.inl hmem.symm

end Indexes

end Graph

/-! ## Bodies that share no node -/

section Bodies

variable {catalog : NodeCatalog} {nodes : List Flow.Node} {edges : List Flow.Edge} {g : Graph} {v w w' : Fin g.size}

/-- What two successors of a node lead to comes after a merge node behind it. -/
theorem Graph.Indexes.exists_meeting (hg : Indexes catalog nodes edges g) (hacyclic : g.Acyclic) (hw : w ∈ g.successorsAt v)
    (hw' : w' ∈ g.successorsAt v) (hne : w ≠ w') {u : Fin g.size} (hu : g.Past w u) (hu' : g.Past w' u) :
    ∃ m, 1 < (g.predecessorsAt m).length ∧ g.Leads v m ∧ g.Past m u := by
  induction u using hacyclic.wellFounded.induction with
  | _ u ih =>
    by_cases hm : 1 < (g.predecessorsAt u).length
    · exact ⟨u, hm, (Leads.of_mem hw).past hu, Or.inl rfl⟩
    have only : ∀ x y, u ∈ g.successorsAt x → u ∈ g.successorsAt y → x = y := by
      intro x y hx hy
      refine Decidable.byContradiction fun hxy => hm ?_
      exact MergingAux.one_lt_length (hg.mem_predecessorsAt_iff.2 hx) (hg.mem_predecessorsAt_iff.2 hy) hxy
    -- the only link to `u` is the one from `v`, to which nothing behind `v` leads back
    have noReturn : ∀ x, x ∈ g.successorsAt v → u ∈ g.successorsAt v → ¬ g.Leads x u := by
      intro x hx hvu hxu
      obtain ⟨z, hz, hzu⟩ := TransGen.tail'_iff.1 hxu
      obtain rfl := only z v hzu hvu
      exact hacyclic z ((Leads.of_mem hx).past (reflTransGen_iff_eq_or_transGen.1 hz))
    rcases hu with rfl | hu
    · rcases hu' with rfl | hu'
      · exact absurd rfl hne
      · exact absurd hu' (noReturn w' hw' hw)
    · rcases hu' with rfl | hu'
      · exact absurd hu (noReturn w hw hw')
      · obtain ⟨z, hz, hzu⟩ := TransGen.tail'_iff.1 hu
        obtain ⟨z', hz', hzu'⟩ := TransGen.tail'_iff.1 hu'
        obtain rfl := only z z' hzu hzu'
        obtain ⟨m, hm, hvm, hmz⟩ := ih z (.of_mem hzu) (reflTransGen_iff_eq_or_transGen.1 hz)
          (reflTransGen_iff_eq_or_transGen.1 hz')
        exact ⟨m, hm, hvm, Or.inr (hmz.tail (.of_mem hzu))⟩

namespace BodyAt

variable {e u : Fin g.size} {body body' : List Element}

/-- A body has no nodes but those past the successor under which it stands. -/
theorem emits_past (hg : Indexes catalog nodes edges g) (h : BodyAt g v w body) (hu : Emits g body u) : g.Past w u := by
  obtain ⟨place, first, path, hplace, -, h, -⟩ := h
  have hleads := h.emits_leads hg hu
  rcases hplace with rfl | ⟨rfl, -⟩
  · exact hleads
  · exact Or.inr hleads

variable (hg : Indexes catalog nodes edges g) (hacyclic : g.Acyclic) (hstaged : g.Staged)
  (hmany : ∀ y, (g.node y).isConditional = true → 1 < (g.successorsAt y).length)

include hg hacyclic hstaged hmany

/-- Nothing in a body comes after the merge node of the element. -/
theorem not_past (h : BodyAt g v w body) (hw : w ∈ g.successorsAt v) (hm : g.pairing.mergeOf.get v = some e)
    (hu : Emits g body u) : ¬ g.Past e u := by
  intro hpast
  obtain ⟨place, first, path, hplace, -, h, hfirst⟩ := h
  have hmerges := mergeOf_eq_some_iff.1 hm
  have hentered := hstaged.entered e hmerges.ends
  have hv : ¬ g.Past e v := by
    rintro (rfl | hev)
    · exact hmerges.other rfl
    · exact hacyclic v (hmerges.leads.trans hev)
  have hout : place.Outside (g.Past e) e ∧ g.Leads v place.node := by
    rcases hplace with rfl | ⟨rfl, hbranch⟩
    · exact ⟨fun hw' => (hentered v w hw hw').resolve_right hv, .of_mem hw⟩
    · refine ⟨fun hw' => ?_, .of_mem hw⟩
      obtain rfl := (hentered v w hw hw').resolve_right hv
      rw [hg.not_branch_of_ends hmerges.ends] at hbranch
      cases hbranch
  obtain ⟨y, hy, -⟩ := h.bypasses hg hacyclic hm hentered ⟨hfirst, hout.2, hout.1, fun _ => Or.inl hm⟩ hu hpast
  have hone := hmany y hy.conditional
  rw [hy.one] at hone
  exact Nat.lt_irrefl 1 hone

/-- Two bodies share no node. -/
theorem disjoint (h : BodyAt g v w body) (h' : BodyAt g v w' body') (hw : w ∈ g.successorsAt v) (hw' : w' ∈ g.successorsAt v)
    (hne : w ≠ w') (hu : Emits g body u) : ¬ Emits g body' u := by
  intro hu'
  obtain ⟨m, hm, hvm, hmu⟩ := hg.exists_meeting hacyclic hw hw' hne (h.emits_past hg hu) (h'.emits_past hg hu')
  obtain ⟨e, he⟩ := exists_merges (MergingAux.one_lt_length hw hw' hne) hm (hacyclic.ne hvm).symm hvm
  have hem : g.Past e m := hstaged.ordered e m he.ends hm (he.first m hm (hacyclic.ne hvm).symm hvm)
  exact h.not_past hg hacyclic hstaged hmany hw (mergeOf_eq_some_iff.2 he) hu (hem.trans hmu)

/-- A body shares no node with what continues the element. -/
theorem disjoint_behind (h : BodyAt g v w body) (hw : w ∈ g.successorsAt v) {first stop : Option (Fin g.size)}
    {path : List (Fin g.size)} {rest : List Element} (hrest : Unfolds g (.behind v) first stop path rest)
    (hu : Emits g body u) : ¬ Emits g rest u := by
  intro hu'
  cases hrest with
  | apart _ => exact emits_nil hu'
  | left _ _ _ => exact emits_nil hu'
  | resumes hm _ hrest => exact h.not_past hg hacyclic hstaged hmany hw hm hu (hrest.emits_leads hg hu')

end BodyAt

end Bodies

/-! ## Each node once -/

section Once

variable {catalog : NodeCatalog} {nodes : List Flow.Node} {edges : List Flow.Edge} {g : Graph}

/-- Every id in a plan is that of a node, and of no branch. -/
theorem Unfolds.exists_of_mem (hg : Indexes catalog nodes edges g) {place : Place g.size} {first stop : Option (Fin g.size)}
    {path : List (Fin g.size)} {es : List Element} (h : Unfolds g place first stop path es) {id : String}
    (hid : id ∈ (Element.nodesOfBody es).map Step.id) : ∃ u, g.idAt u = id ∧ (g.node u).isBranch = false := by
  induction h with
  | halted => cases hid
  | looped _ => cases hid
  | @step v first stop path rest _ _ hk _ ih =>
    rw [Element.nodesOfBody, nodes_stepOn, List.map_append, List.mem_append] at hid
    rcases hid with hid | hid
    · exact ⟨v, (List.mem_singleton.1 hid).symm, by rw [Node.isBranch, hk]⟩
    · exact ih hid
  | @choice v first stop path ids id' bodies rest _ _ hk _ hbranches hkinds _ _ ihbodies ihrest =>
    rw [Element.nodesOfBody, List.map_append, List.mem_append] at hid
    rcases hid with hid | hid
    · rcases List.mem_cons.1 hid with hid | hid
      · exact ⟨v, hid.symm, not_isBranch_of_isConditional (isConditional_of_kind hk)⟩
      · obtain ⟨node, hnode, rfl⟩ := List.mem_map.1 hid
        obtain ⟨body, hbody, hnode⟩ := Element.mem_nodesOfBodies.1 hnode
        obtain ⟨b, hb, rfl⟩ := (hg.mem_bodiesOf hk hbranches hkinds).1 hbody
        exact ihbodies b hb (List.mem_map_of_mem hnode)
    · exact ihrest hid
  | ends _ => cases hid
  | follows _ _ ih => exact ih hid
  | fork _ _ _ _ ihlanes ihrest =>
    rw [Element.nodesOfBody, List.map_append, List.mem_append] at hid
    rcases hid with hid | hid
    · obtain ⟨node, hnode, rfl⟩ := List.mem_map.1 hid
      obtain ⟨l, hl, hnode⟩ := Element.mem_nodesOfLanes.1 hnode
      exact ihlanes l hl (List.mem_map_of_mem hnode)
    · exact ihrest hid
  | apart _ => cases hid
  | left _ _ _ => cases hid
  | resumes _ _ _ ih => exact ih hid

variable (hg : Indexes catalog nodes edges g) (hacyclic : g.Acyclic) (hstaged : g.Staged)
  (hmany : ∀ y, (g.node y).isConditional = true → 1 < (g.successorsAt y).length)

include hg hacyclic hstaged hmany

/-- The ids of the bodies of an element occur once each, and none of them behind the element. -/
theorem nodup_bodies {α : Type} {v : Fin g.size} {xs : List α} {key : α → Fin g.size} {body : α → List Element}
    {first stop : Option (Fin g.size)} {path : List (Fin g.size)} {rest : List Element}
    (hkeys : xs.map key = g.successorsAt v) (hbodies : ∀ x ∈ xs, BodyAt g v (key x) (body x))
    (hnodup : ∀ x ∈ xs, ((Element.nodesOfBody (body x)).map Step.id).Nodup)
    (hrest : Unfolds g (.behind v) first stop path rest) (hrestNodup : ((Element.nodesOfBody rest).map Step.id).Nodup) :
    (((xs.flatMap fun x => Element.nodesOfBody (body x)) ++ Element.nodesOfBody rest).map Step.id).Nodup := by
  have hmem : ∀ x ∈ xs, key x ∈ g.successorsAt v := fun x hx => hkeys ▸ List.mem_map_of_mem hx
  have exists_emits : ∀ x ∈ xs, ∀ id ∈ (Element.nodesOfBody (body x)).map Step.id, ∃ u, g.idAt u = id ∧ Emits g (body x) u := by
    intro x hx id hid
    obtain ⟨_, _, _, -, -, h, -⟩ := hbodies x hx
    obtain ⟨u, rfl, -⟩ := h.exists_of_mem hg hid
    exact ⟨u, rfl, hid⟩
  rw [List.map_append, List.nodup_append, List.map_flatMap, List.nodup_flatMap]
  refine ⟨⟨hnodup, ?_⟩, hrestNodup, ?_⟩
  · have hdistinct : xs.Pairwise fun x y => key x ≠ key y := by
      have hsuccessors := hg.nodup_successorsAt v
      rw [← hkeys] at hsuccessors
      exact List.pairwise_map.1 hsuccessors
    refine hdistinct.imp_of_mem fun {x y} hx hy hne id hid hid' => ?_
    obtain ⟨u, rfl, hu⟩ := exists_emits x hx id hid
    exact (hbodies x hx).disjoint hg hacyclic hstaged hmany (hbodies y hy) (hmem x hx) (hmem y hy) hne hu hid'
  · intro id hid id' hid' heq
    obtain ⟨x, hx, hid⟩ := List.mem_flatMap.1 hid
    obtain ⟨u, rfl, hu⟩ := exists_emits x hx id hid
    subst heq
    exact (hbodies x hx).disjoint_behind hg hacyclic hstaged hmany (hmem x hx) hrest hu hid'

/-- A plan of a flow in stages, in which every conditional node has two branches or more, has no node twice. -/
theorem Unfolds.nodup {place : Place g.size} {first stop : Option (Fin g.size)} {path : List (Fin g.size)} {es : List Element}
    (h : Unfolds g place first stop path es) (hp : Placed g place first stop path) :
    ((Element.nodesOfBody es).map Step.id).Nodup := by
  induction h with
  | halted => exact List.nodup_nil
  | looped _ => exact List.nodup_nil
  | @step v first stop path rest _ _ hk hrest ih =>
    rw [Element.nodesOfBody, nodes_stepOn]
    exact List.nodup_cons.2 ⟨fun hv => hacyclic v (hrest.emits_leads hg hv), ih (hp.step hk)⟩
  | @choice v first stop path ids id bodies rest _ _ hk _ hbranches hkinds hbodies hrest ihbodies ihrest =>
    have hmem : ∀ b ∈ bodies, b.branch ∈ g.successorsAt v := fun b hb => hbranches ▸ List.mem_map_of_mem hb
    have hbodiesPerm := (Setting.bodies_perm (hg.length_unconditional hk hbranches hkinds)).flatMap_right Element.nodesOfBody
    rw [List.map_map, List.flatMap_map] at hbodiesPerm
    have hothers := nodup_bodies hg hacyclic hstaged hmany hbranches
      (fun b hb => (hkinds b hb).elim fun _ hkb => .arm hp hkb (hmem b hb) (hbodies b hb))
      (fun b hb => (hkinds b hb).elim fun _ hkb => ihbodies b hb (hp.arm hkb (hmem b hb))) hrest (ihrest hp.behindChoice)
    have hperm := (hbodiesPerm.append_right (Element.nodesOfBody rest)).map Step.id
    rw [Element.nodesOfBody, choiceOn, Element.nodes, Element.nodesOfBodies_eq, List.cons_append, List.map_cons, List.nodup_cons,
      hperm.mem_iff, hperm.nodup_iff]
    refine ⟨fun hv => ?_, hothers⟩
    rw [List.map_append, List.mem_append, List.map_flatMap, List.mem_flatMap] at hv
    rcases hv with ⟨b, hb, hv⟩ | hv
    · obtain ⟨parent, hkb⟩ := hkinds b hb
      have hbody : BodyAt g v b.branch b.body := .arm hp hkb (hmem b hb) (hbodies b hb)
      exact hacyclic v ((Leads.of_mem (hmem b hb)).past (hbody.emits_past hg hv))
    · exact hacyclic v (hrest.emits_leads hg hv)
  | ends _ => exact List.nodup_nil
  | follows hs _ ih => exact ih (hp.follows (hs ▸ List.mem_singleton_self _))
  | @fork v first stop path id lanes rest _ hsuccessors hlanes hrest ihlanes ihrest =>
    have hmem : ∀ l ∈ lanes, l.successor ∈ g.successorsAt v := fun l hl => hsuccessors ▸ List.mem_map_of_mem hl
    rw [Element.nodesOfBody, Element.nodes, Element.nodesOfLanes_eq]
    exact nodup_bodies hg hacyclic hstaged hmany hsuccessors (fun l hl => .lane hp (hmem l hl) (hlanes l hl))
      (fun l hl => ihlanes l hl (hp.lane (hmem l hl))) hrest (ihrest hp.behindFork)
  | apart _ => exact List.nodup_nil
  | left _ _ _ => exact List.nodup_nil
  | resumes hm _ _ ih => exact ih (hp.resumes hm)

end Once

/-- A node with several successors, at a place or behind it, comes after the start of the first choice or parallel element
there, or is that start. -/
theorem Unfolds.exists_firstStart {g : Graph} (hacyclic : g.Acyclic)
    (hmany : ∀ y, (g.node y).isConditional = true → 1 < (g.successorsAt y).length) {place : Place g.size}
    {first stop : Option (Fin g.size)} {path : List (Fin g.size)} {es : List Element} (h : Unfolds g place first stop path es)
    (hp : Placed g place first stop path) (hplace : ∀ v, place ≠ .behind v) (hstop : stop = none) {u : Fin g.size}
    (hu : 1 < (g.successorsAt u).length) (hpast : g.Past place.node u) :
    ∃ f, Element.firstStart (place.before g) es = some (g.idAt f) ∧ 1 < (g.successorsAt f).length ∧ g.Past f u := by
  induction h with
  | halted => cases hstop
  | looped hm => exact absurd hm (hp.not_mem_path hacyclic)
  | @step v first stop path rest _ _ hk _ ih =>
    rw [firstStart_step]
    exact ih (hp.step hk) nofun hstop hpast
  | @choice v _ _ _ _ _ _ _ _ _ hk _ _ _ _ _ _ _ => exact ⟨v, rfl, hmany v (isConditional_of_kind hk), hpast⟩
  | @ends v _ _ _ hs =>
    rcases hpast with heq | hl
    · obtain rfl : u = v := heq
      rw [hs] at hu
      simp at hu
    · obtain ⟨w, hw, -⟩ := TransGen.head'_iff.1 hl
      have hmem : w ∈ g.successorsAt v := hw
      rw [hs] at hmem
      cases hmem
  | @follows v w first stop path es hs h ih =>
    have hw : w ∈ g.successorsAt v := hs ▸ List.mem_singleton_self w
    rw [h.firstStart_into]
    refine ih (hp.follows hw) nofun hstop ?_
    rcases hpast with heq | hl
    · obtain rfl : u = v := heq
      rw [hs] at hu
      simp at hu
    · obtain ⟨w', hw', hl⟩ := TransGen.head'_iff.1 hl
      have hmem : w' ∈ g.successorsAt v := hw'
      rw [hs, List.mem_singleton] at hmem
      exact hmem ▸ reflTransGen_iff_eq_or_transGen.1 hl
  | @fork v _ _ _ _ _ _ hforks _ _ _ _ _ => exact ⟨v, rfl, hforks, hpast⟩
  | apart _ => exact absurd rfl (hplace _)
  | left _ _ _ => exact absurd rfl (hplace _)
  | resumes _ _ _ _ => exact absurd rfl (hplace _)

/-- A flow without loops, with one entry, in which every conditional node has two branches or more, has each of its nodes exactly
once in its plan, if it compiles without interceptors, when these two conditions hold of its merge nodes in the order of their
declaration: every path from the entry to the next one goes through the one before it, and only the first one is shared by several
branch starts. -/
theorem nodeIds_perm {c : Compiler} (hc : c.chain = []) {f : Flow} {g : Graph} (hg : c.index f = .ok g) (hacyclic : g.Acyclic)
    {entry : String} (hentry : g.entry.map g.idAt = .ok entry)
    (hbranches : ∀ n ∈ f.nodes, c.catalog.shapeOf? n.component = some .conditional → 2 ≤ n.branches.length)
    (hstages : ((f.nodes.map (·.id)).filter g.isBranchEnd).IsChain fun e e' => ∀ p, g.Path entry e' p → e ∈ p)
    (hshared : ∀ e, 1 < (g.branchStartsOf e).length → ((f.nodes.map (·.id)).filter g.isBranchEnd).head? = some e)
    {route : Route} (hr : c.compile f = .ok route) : route.nodeIds.Perm (f.nodes.map (·.id)) := by
  have h : Indexes c.catalog f.nodes f.edges g := indexes_of_build hg
  obtain ⟨start, hstart, hunfolds⟩ := Compiler.unfolds_of_compileGraph hc (Compiler.compileGraph_of_compile hg hr)
  rw [hstart] at hentry
  cases hentry
  have hmany : ∀ y, (g.node y).isConditional = true → 1 < (g.successorsAt y).length := by
    intro y hy
    cases hk : (g.node y).kind with
    | conditional ids =>
      obtain ⟨n, hn, hkind, -⟩ := h.conditional_origin hk
      obtain ⟨hids, -⟩ := Node.kindOf_conditional hkind
      obtain ⟨n', -, -, hids', -, hmatch⟩ := h.successors_conditional hk
      have hlength : (g.successorsAt y).length = n.branches.length := by
        rw [hmatch.length_eq, ← List.length_map (f := (·.id)), ← hids', hids, List.length_map]
      rw [hlength]
      exact hbranches n hn (Node.shapeOf?_of_conditional hkind)
    | _ =>
      rw [Node.isConditional, hk] at hy
      cases hy
  have hstaged : g.Staged := h.staged hacyclic hstart hstages
  have hnodup : route.nodeIds.Nodup := hunfolds.nodup h hacyclic hstaged hmany (.entry start)
  have hcovered : ∀ v, (g.node v).isBranch = false → Emits g route.steps v := by
    refine hunfolds.emits_all h hacyclic hstart fun e he hne => ?_
    obtain ⟨s, hs⟩ := List.exists_mem_of_length_pos (Nat.lt_trans Nat.zero_lt_one he)
    have hmerges := mergeOf_eq_some_iff.1 (mem_startsOf.1 hs)
    have hleast : ∀ m, 1 < (g.predecessorsAt m).length → e ≤ m :=
      fun m hm => h.le_of_head?_ends (hshared (g.idAt e) (h.shared_idAt_iff.2 he)) hm
    -- the first structure leads to a branch start of `e`, so it is paired with `e`, the first merge node of all
    obtain ⟨x, hx, hforks, hxs⟩ := hunfolds.exists_firstStart hacyclic hmany (.entry start) (by simp) rfl hmerges.start
      (hacyclic.entry_leads h hstart s)
    have hxe : g.Leads x e := hxs.tail hmerges.leads
    refine absurd (mergeOf_eq_some_iff.2 ?_) (hne x hx)
    exact ⟨hforks, hmerges.ends, (hacyclic.ne hxe).symm, hxe, fun m hm _ _ => hleast m hm⟩
  rw [← h.map_idAt_declared]
  have hdeclared : ((g.vertices.filter fun v => !(g.node v).isBranch).map g.idAt).Nodup :=
    ((List.nodup_finRange g.size).filter _).map fun _ _ => h.ids_injective
  refine (List.perm_ext_iff_of_nodup hnodup hdeclared).2 fun id => ?_
  constructor
  · intro hid
    obtain ⟨u, rfl, hu⟩ := hunfolds.exists_of_mem h hid
    exact List.mem_map_of_mem (List.mem_filter.2 ⟨List.mem_finRange u, by rw [hu]; rfl⟩)
  · intro hid
    obtain ⟨u, hu, rfl⟩ := List.mem_map.1 hid
    exact hcovered u (by simpa using (List.mem_filter.1 hu).2)

/-- Two stages: the pass-through lane of the fan-out at A and the branches of C meet at D, where another fan-out begins that ends
at I. -/
def Flow.delivery : Flow where
  id := "delivery"
  nodes := [
    { id := "A", component := "script" },
    { id := "C", component := "choice", branches := [⟨"yes", some "amount < 100"⟩, ⟨"no", none⟩] },
    { id := "B", component := "script" },
    { id := "D", component := "script" },
    { id := "E", component := "script" },
    { id := "F", component := "script" },
    { id := "I", component := "script" }]
  edges := [("A", "C"), ("A", "D"), ("yes", "B"), ("no", "D"), ("B", "D"), ("D", "E"), ("D", "F"), ("E", "I"), ("F", "I")].map
    fun (source, target) => { source := source, target := target }

/-- The plan of `Flow.delivery` has each node once. -/
theorem nodeIds_perm_delivery : ∃ g route, Compiler.index {} Flow.delivery = .ok g ∧ g.Acyclic ∧
    Compiler.compile {} Flow.delivery = .ok route ∧
      (Flow.delivery.nodes.map (·.id)).filter g.isBranchEnd = ["D", "I"] ∧ g.branchStartsOf "D" = ["A", "C"] ∧
        route.nodeIds.Perm (Flow.delivery.nodes.map (·.id)) := by
  obtain ⟨g, hg, hacyclic, ⟨entry, hentry, hA⟩, hends, hstarts, hshared, hI, hE, hF⟩ :
      ∃ g, Compiler.index {} Flow.delivery = .ok g ∧ g.Acyclic ∧ (∃ entry, g.entry = .ok entry ∧ g.idAt entry = "A") ∧
        (Flow.delivery.nodes.map (·.id)).filter g.isBranchEnd = ["D", "I"] ∧ g.branchStartsOf "D" = ["A", "C"] ∧
        (∀ v, 1 < (g.branchStartsOf (g.idAt v)).length → "D" = g.idAt v) ∧
        g.predecessors "I" = ["E", "F"] ∧ g.predecessors "E" = ["D"] ∧ g.predecessors "F" = ["D"] := by
    decide +kernel
  obtain ⟨route, hr⟩ : ∃ route, Compiler.compile {} Flow.delivery = .ok route := by
    decide +kernel
  have h := indexes_of_build hg
  have hentry' : g.entry.map g.idAt = .ok "A" := by
    rw [hentry, Except.map, hA]
  -- a path to I goes through E or F, and both come after D only
  have hthrough : ∀ p, g.Path "A" "I" p → "D" ∈ p := by
    have hlast : ∀ u ∈ g.predecessors "E" ++ g.predecessors "F", ∀ p, g.Path "A" u p → "D" ∈ p := by
      intro u hu p hp
      rw [hE, hF] at hu
      obtain rfl : u = "D" := by simpa using hu
      exact hp.mem_last
    intro p hp
    refine h.mem_path_of_predecessors (by decide) (fun u hu q hq => ?_) hp
    rw [hI] at hu
    rcases List.mem_cons.1 hu with rfl | hu
    · exact h.mem_path_of_predecessors (by decide) (fun u hu => hlast u (List.mem_append_left _ hu)) hq
    · obtain rfl := List.mem_singleton.1 hu
      exact h.mem_path_of_predecessors (by decide) (fun u hu => hlast u (List.mem_append_right _ hu)) hq
  refine ⟨g, route, hg, hacyclic, hr, hends, hstarts, nodeIds_perm rfl hg hacyclic hentry' (by decide +kernel) ?_ ?_ hr⟩
  · rw [hends]
    exact .cons_cons hthrough (.singleton _)
  · intro id hid
    obtain ⟨e, rfl⟩ := h.exists_of_branchStartsOf (Nat.lt_trans Nat.zero_lt_one hid)
    rw [hends, ← hshared e hid]
    rfl

end FlowPlan
