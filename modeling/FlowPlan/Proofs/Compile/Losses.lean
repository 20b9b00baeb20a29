import FlowPlan.Proofs.Compile.Coverage
import FlowPlan.Proofs.Compile.Placement

/-!
# When a plan loses nodes

A merge node that several branch starts share, and with which the first structure is not paired, is left to an element that may
not be there. In a graph without loops it stands in the plan exactly if links lead to it, from the entry or from a conditional
node with a single branch, that leave none of the branch starts paired with it (`Unfolds.approaches`, `Loose.emits`). So there is
an exact condition for a plan to have all nodes of its flow (`every_node_covered_iff`).
-/

namespace FlowPlan

open FlowPlan.Graph Relation

namespace Graph

variable (g : Graph)

/-- A link that does not leave a branch start paired with `e`. -/
def Avoids (e v w : Fin g.size) : Prop :=
  w ∈ g.successorsAt v ∧ g.pairing.mergeOf.get v ≠ some e

/-- A node from which no merge node has to be stopped before: the entry, or a conditional node with a single branch. -/
def Root (x : Fin g.size) : Prop :=
  g.entry = .ok x ∨ (g.node x).isConditional = true ∧ (g.successorsAt x).length = 1

/-- Links lead to a node from a root, and leave no branch start paired with `e`. -/
def Approaches (e v : Fin g.size) : Prop :=
  ∃ x, g.Root x ∧ TransGen (g.Avoids e) x v

variable {g}

/-- Links that leave no branch start are links. -/
theorem Avoids.leads {e v w : Fin g.size} (h : TransGen (g.Avoids e) v w) : g.Leads v w :=
  TransGen.mono (fun _ _ h => h.1) v w h

/-- Links that avoid the branch starts of `e` go on from where such links have led. -/
theorem approaches_trans {e v w : Fin g.size} (h : g.Root v ∨ g.Approaches e v) (hw : TransGen (g.Avoids e) v w) :
    g.Approaches e w := by
  rcases h with h | ⟨x, hx, h⟩
  · exact ⟨v, h, hw⟩
  · exact ⟨x, hx, h.trans hw⟩

/-- A node with a single successor opens nothing, and so is paired with no merge node. -/
theorem mergeOf_ne_of_single {v w e : Fin g.size} (hs : g.successorsAt v = [w]) : g.pairing.mergeOf.get v ≠ some e := by
  intro hm
  have hlength := (mergeOf_eq_some_iff.1 hm).start
  rw [hs] at hlength
  simp at hlength

/-- The links from a branch start to its merge node avoid the branch starts of any other one. -/
theorem Merges.avoids (hacyclic : g.Acyclic) {v m e : Fin g.size} (h : g.Merges v m) (hne : m ≠ e) :
    TransGen (g.Avoids e) v m := by
  have avoid : ∀ t, t = v ∨ g.Leads v t → g.Leads t m → g.pairing.mergeOf.get t ≠ some e := by
    intro t hvt htm hm
    have ht := mergeOf_eq_some_iff.1 hm
    rcases hvt with rfl | hvt
    · have hm' := mergeOf_eq_some_iff.2 h
      rw [hm] at hm'
      exact hne (Option.some.inj hm').symm
    · have hve := hvt.trans ht.leads
      exact hne (h.eq_of_leads ht hve (hacyclic.ne hve).symm htm (hacyclic.ne htm).symm)
  have along : ∀ t, g.Leads t m → t = v ∨ g.Leads v t → TransGen (g.Avoids e) t m := by
    intro t ht
    induction ht using TransGen.head_induction_on with
    | @single t hl =>
      intro hvt
      exact .single ⟨hl, avoid t hvt (.of_mem hl)⟩
    | @head t u hl hum ih =>
      intro hvt
      refine TransGen.head ⟨hl, avoid t hvt (Leads.trans (.of_mem hl) hum)⟩ (ih (Or.inr ?_))
      exact Placed.beyond_of_leads (hvt.imp_left Eq.symm) (.of_mem hl)
  exact along v h.leads (Or.inl rfl)

end Graph

/-! ## A shared merge node in a plan -/

/-- Links have led to a place that avoid the branch starts of `e`. -/
def Place.Approached (g : Graph) (e : Fin g.size) : Place g.size → Prop
  | .into v => g.entry = .ok v ∨ g.Approaches e v
  | .after v => g.Root v ∨ g.Approaches e v
  | .behind v => g.Root v ∨ g.Approaches e v

variable {catalog : NodeCatalog} {nodes : List Flow.Node} {edges : List Flow.Edge} {g : Graph}

/-- Before its merge node, a branch start that comes after another one with the same merge node has it too. -/
theorem mergeOf_of_stop (hacyclic : g.Acyclic) {s v e : Fin g.size} (hs : g.pairing.mergeOf.get s = some e)
    (hsv : s = v ∨ g.Leads s v) (hv : 1 < (g.successorsAt v).length) (hve : g.Leads v e) :
    g.pairing.mergeOf.get v = some e := by
  rcases hsv with rfl | hsv
  · exact hs
  · have hback : g.pairing.mergeOf.get v ≠ some s := fun hm => hacyclic s (hsv.trans (mergeOf_eq_some_iff.1 hm).leads)
    exact mergeOf_eq_some_iff.2 ((mergeOf_eq_some_iff.1 hs).nested hv hsv hve (hacyclic.ne hve).symm hback)

/-- What is unfolded at a place stops before `e`, or links have led to the place that avoid the branch starts of `e`. -/
def Place.Bound (g : Graph) (e : Fin g.size) (place : Place g.size) (stop : Option (Fin g.size)) : Prop :=
  stop = some e ∨ place.Approached g e

namespace Place.Bound

variable {v w e merge : Fin g.size} {first stop : Option (Fin g.size)} {path : List (Fin g.size)}

/-- What follows a plain node. -/
theorem step (h : (Place.into v).Bound g e stop) : (Place.after v).Bound g e stop :=
  h.imp_right (Or.imp_left Or.inl)

/-- What continues a choice. -/
theorem behindChoice (h : (Place.into v).Bound g e stop) : (Place.behind v).Bound g e stop :=
  h.imp_right (Or.imp_left Or.inl)

/-- What the only link leads to. -/
theorem follows (h : (Place.after v).Bound g e stop) (hs : g.successorsAt v = [w]) : (Place.into w).Bound g e stop :=
  h.imp_right fun h =>
    Or.inr (approaches_trans h (.single ⟨hs ▸ List.mem_singleton_self w, mergeOf_ne_of_single hs⟩))

/-- A body of a choice. A branch start that leads to a node to stop before has it as its merge node, so a choice that goes on has
a single branch. -/
theorem arm (hacyclic : g.Acyclic) (hp : Placed g (.into v) first stop path) (h : (Place.into v).Bound g e stop)
    (hc : (g.node v).isConditional = true) (hw : w ∈ g.successorsAt v) (hl : g.Leads w e) :
    (Place.after w).Bound g e (g.pairing.mergeOf.get v) := by
  by_cases hm : g.pairing.mergeOf.get v = some e
  · exact Or.inl hm
  · have hroot : g.Root v ∨ g.Approaches e v := by
      rcases h with rfl | h
      · obtain ⟨s, hms, hsv⟩ := hp.stop e rfl
        have hone : ¬ 1 < (g.successorsAt v).length :=
          fun hv => hm (mergeOf_of_stop hacyclic hms (Or.inr hsv) hv (.trans (.of_mem hw) hl))
        have hpos := List.length_pos_of_mem hw
        exact Or.inl (Or.inr ⟨hc, by omega⟩)
      · exact h.imp_left Or.inl
    exact Or.inr (Or.inr (approaches_trans hroot (.single ⟨hw, hm⟩)))

/-- A lane of a parallel element. -/
theorem lane (hacyclic : g.Acyclic) (hp : Placed g (.after v) first stop path) (h : (Place.after v).Bound g e stop)
    (hmany : 1 < (g.successorsAt v).length) (hw : w ∈ g.successorsAt v) (hl : w = e ∨ g.Leads w e) :
    (Place.into w).Bound g e (g.pairing.mergeOf.get v) := by
  by_cases hm : g.pairing.mergeOf.get v = some e
  · exact Or.inl hm
  · have hve : g.Leads v e := by
      rcases hl with rfl | hl
      · exact .of_mem hw
      · exact .trans (.of_mem hw) hl
    have hroot : g.Root v ∨ g.Approaches e v := by
      rcases h with rfl | h
      · obtain ⟨s, hms, hsv⟩ := hp.stop e rfl
        exact absurd (mergeOf_of_stop hacyclic hms hsv hmany hve) hm
      · exact h
    exact Or.inr (Or.inr (approaches_trans hroot (.single ⟨hw, hm⟩)))

/-- Another merge node that is resumed. -/
theorem resumes (hacyclic : g.Acyclic) (h : (Place.behind v).Bound g e stop) (hm : g.pairing.mergeOf.get v = some merge)
    (hne : merge ≠ e) : (Place.into merge).Bound g e stop :=
  h.imp_right fun h => Or.inr (approaches_trans h ((mergeOf_eq_some_iff.1 hm).avoids hacyclic hne))

end Place.Bound

/-- A shared merge node is not the entry. -/
theorem Graph.Shared.ne_entry {e : Fin g.size} (h : g.Shared e) : g.entry ≠ .ok e := by
  intro hentry
  have hends := h.ends
  rw [(entry_ok hentry e).2 rfl] at hends
  simp at hends

/-- When a shared merge node stands in a plan, links lead to it that avoid its branch starts. -/
theorem Unfolds.approaches (hg : Indexes catalog nodes edges g) (hacyclic : g.Acyclic) {e : Fin g.size} (hshared : g.Shared e)
    {place : Place g.size} {first stop : Option (Fin g.size)} {path : List (Fin g.size)} {es : List Element}
    (h : Unfolds g place first stop path es) (hp : Placed g place first stop path)
    (hfirst : ∀ f, Outermost g place first es f → g.pairing.mergeOf.get f ≠ some e) (hb : place.Bound g e stop)
    (he : Emits g es e) : g.Approaches e e := by
  induction h with
  | halted => exact absurd he emits_nil
  | looped _ => exact absurd he emits_nil
  | step hstop _ hk _ ih =>
    rcases hg.emits_step.1 he with rfl | he
    · exact (hb.resolve_left hstop).resolve_left hshared.ne_entry
    · exact ih (hp.step hk) (fun f hf => hfirst f hf.step) hb.step he
  | choice hstop _ hk _ hbranches hkinds hbodies _ ihbodies ihrest =>
    rcases (hg.emits_choice hk hbranches hkinds).1 he with rfl | ⟨b, hmem, he⟩ | he
    · exact (hb.resolve_left hstop).resolve_left hshared.ne_entry
    · have hw := hbranches ▸ List.mem_map_of_mem hmem
      obtain ⟨parent, hkb⟩ := hkinds b hmem
      have hbound := hb.arm hacyclic hp (isConditional_of_kind hk) hw ((hbodies b hmem).emits_leads hg he)
      exact ihbodies b hmem (hp.arm hkb hw) (fun f hf => hfirst f (hf.opened rfl)) hbound he
    · exact ihrest hp.behindChoice (fun f hf => hfirst f (hf.opened rfl)) hb.behindChoice he
  | ends _ => exact absurd he emits_nil
  | follows hs h ih =>
    exact ih (hp.follows (hs ▸ List.mem_singleton_self _)) (fun f hf => hfirst f (hf.follows h)) (hb.follows hs) he
  | fork hmany hsuccessors hlanes _ ihlanes ihrest =>
    rcases emits_parallel.1 he with ⟨l, hl, he⟩ | he
    · have hw := hsuccessors ▸ List.mem_map_of_mem hl
      have hbound := hb.lane hacyclic hp hmany hw (((hlanes l hl).emits_leads hg he).imp_left Eq.symm)
      exact ihlanes l hl (hp.lane hw) (fun f hf => hfirst f (hf.opened rfl)) hbound he
    · exact ihrest hp.behindFork (fun f hf => hfirst f (hf.opened rfl)) hb he
  | apart _ => exact absurd he emits_nil
  | left _ _ _ => exact absurd he emits_nil
  | @resumes v merge first stop path es hm hopen _ ih =>
    by_cases hme : merge = e
    · subst hme
      obtain rfl := hopen hshared
      exact absurd hm (hfirst v rfl)
    · exact ih (hp.resumes hm) hfirst (hb.resumes hacyclic hm hme) he

/-! ## Links that lead into a plan -/

/-- Where a node of a plan is unfolded: a link leads to it there, and it neither is stopped before nor is on the path. -/
def Occurs (g : Graph) (es : List Element) (u : Fin g.size) : Prop :=
  ∃ first stop path part, Placed g (.into u) first stop path ∧ Unfolds g (.into u) first stop path part ∧ stop ≠ some u ∧
    u ∉ path ∧ ∀ w, Emits g part w → Emits g es w

/-- What occurs in a part occurs in every sequence that has the part. -/
theorem Occurs.mono {es es' : List Element} {u : Fin g.size} (h : Occurs g es u) (hsub : ∀ w, Emits g es w → Emits g es' w) :
    Occurs g es' u := by
  obtain ⟨first, stop, path, part, hp, hu, hstop, hpath, hpart⟩ := h
  exact ⟨first, stop, path, part, hp, hu, hstop, hpath, fun w hw => hsub w (hpart w hw)⟩

/-- Every node of a plan is unfolded somewhere. -/
theorem Unfolds.occurs (hg : Indexes catalog nodes edges g) {place : Place g.size} {first stop : Option (Fin g.size)}
    {path : List (Fin g.size)} {es : List Element} (h : Unfolds g place first stop path es)
    (hp : Placed g place first stop path) {u : Fin g.size} (hu : Emits g es u) : Occurs g es u := by
  induction h with
  | halted => exact absurd hu emits_nil
  | looped _ => exact absurd hu emits_nil
  | @step v first stop path rest hstop hpath hk hrest ih =>
    rcases hg.emits_step.1 hu with rfl | hu
    · exact ⟨first, stop, path, _, hp, .step hstop hpath hk hrest, hstop, hpath, fun w hw => hw⟩
    · exact (ih (hp.step hk) hu).mono fun w hw => hg.emits_step.2 (Or.inr hw)
  | @choice v first stop path ids id bodies rest hstop hpath hk hs hbranches hkinds hbodies hbehind ihbodies ihrest =>
    rcases (hg.emits_choice hk hbranches hkinds).1 hu with rfl | ⟨b, hb, hu⟩ | hu
    · exact ⟨first, stop, path, _, hp, .choice hstop hpath hk hs hbranches hkinds hbodies hbehind, hstop, hpath,
        fun w hw => hw⟩
    · obtain ⟨parent, hkb⟩ := hkinds b hb
      refine (ihbodies b hb (hp.arm hkb (hbranches ▸ List.mem_map_of_mem hb)) hu).mono fun w hw => ?_
      exact (hg.emits_choice hk hbranches hkinds).2 (Or.inr (Or.inl ⟨b, hb, hw⟩))
    · refine (ihrest hp.behindChoice hu).mono fun w hw => ?_
      exact (hg.emits_choice hk hbranches hkinds).2 (Or.inr (Or.inr hw))
  | ends _ => exact absurd hu emits_nil
  | follows hs _ ih => exact ih (hp.follows (hs ▸ List.mem_singleton_self _)) hu
  | fork _ hsuccessors _ _ ihlanes ihrest =>
    rcases emits_parallel.1 hu with ⟨l, hl, hu⟩ | hu
    · refine (ihlanes l hl (hp.lane (hsuccessors ▸ List.mem_map_of_mem hl)) hu).mono fun w hw => ?_
      exact emits_parallel.2 (Or.inl ⟨l, hl, hw⟩)
    · exact (ihrest hp.behindFork hu).mono fun w hw => emits_parallel.2 (Or.inr hw)
  | apart _ => exact absurd hu emits_nil
  | left _ _ _ => exact absurd hu emits_nil
  | resumes hm _ _ ih => exact ih (hp.resumes hm) hu

/-- Somewhere in a plan the links of a node are unfolded without stopping before `e`. A conditional node stops before its own
merge node at most. -/
def Loose (g : Graph) (steps : List Element) (e v : Fin g.size) : Prop :=
  (g.node v).isConditional = true ∨
    ∃ first stop path es, Placed g (.after v) first stop path ∧ Unfolds g (.after v) first stop path es ∧ stop ≠ some e ∧
      ∀ w, Emits g es w → Emits g steps w

section Loose

variable {steps : List Element} {e : Fin g.size}

/-- A node that is unfolded without stopping before `e` stands in the plan, and its links are unfolded that way. -/
theorem Unfolds.loose_of_active (hg : Indexes catalog nodes edges g) {w : Fin g.size} {first stop : Option (Fin g.size)}
    {path : List (Fin g.size)} {es : List Element} (h : Unfolds g (.into w) first stop path es)
    (hp : Placed g (.into w) first stop path) (hw : stop ≠ some w) (hpath : w ∉ path) (hstop : stop ≠ some e)
    (hsub : ∀ w, Emits g es w → Emits g steps w) : Emits g steps w ∧ Loose g steps e w := by
  have hmet : Emits g es w := by
    rcases h.into_met hg with hm | hm | hm
    · exact hm
    · exact absurd hm hpath
    · exact absurd hm hw
  refine ⟨hsub w hmet, ?_⟩
  cases h with
  | halted => exact absurd rfl hw
  | looped hm => exact absurd hm hpath
  | step _ _ hk hrest =>
    exact Or.inr ⟨_, _, _, _, hp.step hk, hrest, hstop, fun u hu => hsub u (hg.emits_step.2 (Or.inr hu))⟩
  | choice _ _ hk _ _ _ _ _ => exact Or.inl (isConditional_of_kind hk)

/-- A link is unfolded without stopping before `e`. When its target is another node to stop before, that one is unfolded
elsewhere, and there neither `e` nor a branch start of `e` lies around it. -/
theorem Unfolds.loose_of_into (hg : Indexes catalog nodes edges g) (hacyclic : g.Acyclic)
    (hkept : ∀ w, g.Leads w e → (g.node w).isBranch = false → Occurs g steps w) {w : Fin g.size}
    {first stop : Option (Fin g.size)} {path : List (Fin g.size)} {es : List Element}
    (h : Unfolds g (.into w) first stop path es) (hp : Placed g (.into w) first stop path) (hstop : stop ≠ some e)
    (hsub : ∀ w, Emits g es w → Emits g steps w) : (w = e → Emits g steps e) ∧ (g.Leads w e → Loose g steps e w) := by
  by_cases hw : stop = some w
  · refine ⟨fun he => absurd (he ▸ hw) hstop, fun hwe => ?_⟩
    obtain ⟨s, hs, -⟩ := hp.stop w hw
    have hmerges := mergeOf_eq_some_iff.1 hs
    obtain ⟨first', stop', path', part, hp', h', hw', hpath', hpart⟩ := hkept w hwe (hg.not_branch_of_ends hmerges.ends)
    refine (h'.loose_of_active hg hp' hw' hpath' ?_ hpart).2
    intro he
    obtain ⟨t, ht, htw⟩ := hp'.stop e he
    have hse := hmerges.leads.trans hwe
    have hsame : w = e := hmerges.eq_of_leads (mergeOf_eq_some_iff.1 ht) hse (hacyclic.ne hse).symm htw (hacyclic.ne htw).symm
    exact hacyclic.ne hwe hsame
  · obtain ⟨hemits, hloose⟩ := h.loose_of_active hg hp hw (hp.not_mem_path hacyclic) hstop hsub
    exact ⟨fun he => he ▸ hemits, fun _ => hloose⟩

/-- A link that avoids the branch starts of `e` carries on. -/
theorem Loose.link (hg : Indexes catalog nodes edges g) (hacyclic : g.Acyclic) (he : 1 < (g.predecessorsAt e).length)
    (hkept : ∀ w, g.Leads w e → (g.node w).isBranch = false → Occurs g steps w) {v w : Fin g.size} (hv : g.Leads v e)
    (h : Loose g steps e v) (hl : g.Avoids e v w) : (w = e → Emits g steps e) ∧ (g.Leads w e → Loose g steps e w) := by
  obtain ⟨hw, hm⟩ := hl
  rcases h with hc | ⟨first, stop, path, es, hp, h, hstop, hsub⟩
  · obtain ⟨first, stop, path, part, hp, h, hv', hpath, hpart⟩ := hkept v hv (not_isBranch_of_isConditional hc)
    cases h with
    | halted => exact absurd rfl hv'
    | looped hmem => exact absurd hmem hpath
    | step _ _ hk _ =>
      rw [not_isConditional_of_plain hk] at hc
      cases hc
    | choice _ _ hk _ hbranches hkinds hbodies _ =>
      have hx := hw
      rw [← hbranches] at hx
      obtain ⟨b, hb, rfl⟩ := List.mem_map.1 hx
      obtain ⟨parent, hkb⟩ := hkinds b hb
      constructor
      · rintro rfl
        have hnot := hg.not_branch_of_ends he
        rw [Node.isBranch, hkb] at hnot
        cases hnot
      · refine fun _ => Or.inr ⟨_, _, _, _, hp.arm hkb hw, hbodies b hb, hm, fun u hu => hpart u ?_⟩
        exact (hg.emits_choice hk hbranches hkinds).2 (Or.inr (Or.inl ⟨b, hb, hu⟩))
  · cases h with
    | ends hs =>
      rw [hs] at hw
      cases hw
    | follows hs h =>
      have hx := hw
      rw [hs, List.mem_singleton] at hx
      subst hx
      exact h.loose_of_into hg hacyclic hkept (hp.follows hw) hstop hsub
    | fork _ hsuccessors hlanes _ =>
      have hx := hw
      rw [← hsuccessors] at hx
      obtain ⟨l, hl, rfl⟩ := List.mem_map.1 hx
      refine (hlanes l hl).loose_of_into hg hacyclic hkept (hp.lane hw) hm fun u hu => hsub u ?_
      exact emits_parallel.2 (Or.inl ⟨l, hl, hu⟩)

/-- Links that avoid the branch starts of `e` bring `e` into the plan. -/
theorem Loose.emits (hg : Indexes catalog nodes edges g) (hacyclic : g.Acyclic) (he : 1 < (g.predecessorsAt e).length)
    (hkept : ∀ w, g.Leads w e → (g.node w).isBranch = false → Occurs g steps w) {v : Fin g.size} (h : Loose g steps e v)
    (hl : TransGen (g.Avoids e) v e) : Emits g steps e := by
  induction hl using TransGen.head_induction_on with
  | single hl => exact (h.link hg hacyclic he hkept (.of_mem hl.1) hl).1 rfl
  | head hl hrest ih =>
    have hwe := Avoids.leads hrest
    exact ih ((h.link hg hacyclic he hkept (.trans (.of_mem hl.1) hwe) hl).2 hwe)

end Loose

/-! ## All nodes of a flow -/

/-- When links lead to every shared merge node that avoid its branch starts, a plan has every node of its graph, branches
excepted. -/
theorem Unfolds.emits_all (hg : Indexes catalog nodes edges g) (hacyclic : g.Acyclic) {entry : Fin g.size}
    (hentry : g.entry = .ok entry) {steps : List Element} (h : Unfolds g (.into entry) none none [] steps)
    (hshared : ∀ e, g.Shared e →
      (∀ f, Element.firstStart none steps = some (g.idAt f) → g.pairing.mergeOf.get f ≠ some e) → g.Approaches e e)
    (v : Fin g.size) (hv : (g.node v).isBranch = false) : Emits g steps v := by
  induction v using hacyclic.wellFounded.induction with
  | _ v ih =>
    by_cases hve : v = entry
    · exact hve ▸ (h.into_met hg).emits
    -- a node in front of `v`, itself or the conditional node of a branch, is in the plan already
    have hbefore : ∃ u, Emits g steps u ∧ g.Follows u v := by
      obtain ⟨u, hu⟩ := List.exists_mem_of_ne_nil _ (mt (entry_ok hentry v).1 hve)
      have huv := hg.mem_predecessorsAt_iff.1 hu
      have hcond := hg.not_conditional_of_successor hv huv
      cases hk : (g.node u).kind with
      | branch parent condition =>
        obtain ⟨x, ids, -, hkx, hx⟩ := hg.predecessors_branch hk
        have hxu : u ∈ g.successorsAt x := hg.mem_predecessorsAt_iff.1 (hx ▸ List.mem_singleton_self x)
        have hc := isConditional_of_kind hkx
        exact ⟨x, ih x (.trans (.of_mem hxu) (.of_mem huv)) (not_isBranch_of_isConditional hc), Or.inr ⟨hc, u, hxu, huv⟩⟩
      | _ => exact ⟨u, ih u (.of_mem huv) (by rw [Node.isBranch, hk]), Or.inl ⟨hcond, huv⟩⟩
    obtain ⟨u, hu, huv⟩ := hbefore
    rcases (h.covered hg).1 u hu v huv with hmet | ⟨hv', -⟩
    · exact hmet.emits
    by_cases hfirst : ∃ f, Element.firstStart none steps = some (g.idAt f) ∧ g.pairing.mergeOf.get f = some v
    · obtain ⟨f, hf, hm⟩ := hfirst
      obtain ⟨f', hff, hmet⟩ := h.merge_of_firstStart hg hf
      exact (hmet v (hg.ids_injective hff ▸ hm)).emits
    · obtain ⟨x, hx, hxv⟩ := hshared v hv' fun f hf hm => hfirst ⟨f, hf, hm⟩
      have hkept : ∀ w, g.Leads w v → (g.node w).isBranch = false → Occurs g steps w :=
        fun w hw hb => h.occurs hg (.entry entry) (ih w hw hb)
      have hloose : Loose g steps v x := by
        rcases hx with hx | ⟨hc, -⟩
        · rw [hentry] at hx
          cases hx
          exact (h.loose_of_active hg (.entry entry) (by simp) (by simp) (by simp) fun _ hw => hw).2
        · exact Or.inl hc
      exact hloose.emits hg hacyclic hv'.ends hkept hxv

namespace Graph.Indexes

/-- Links by ids go from position to position. -/
theorem exists_avoids (hg : Indexes catalog nodes edges g) {e v : Fin g.size} {y : String}
    (h : TransGen (fun v w => w ∈ g.successors v ∧ v ∉ g.branchStartsOf (g.idAt e)) (g.idAt v) y) :
    ∃ w, g.idAt w = y ∧ TransGen (g.Avoids e) v w := by
  have link : ∀ u z, z ∈ g.successors (g.idAt u) → g.idAt u ∉ g.branchStartsOf (g.idAt e) →
      ∃ w, g.idAt w = z ∧ g.Avoids e u w := by
    intro u z hz hu
    rw [hg.successors_idAt] at hz
    obtain ⟨w, hw, rfl⟩ := List.mem_map.1 hz
    exact ⟨w, rfl, hw, fun hm => hu (hg.mem_branchStartsOf_idAt.2 hm)⟩
  induction h with
  | single h =>
    obtain ⟨w, rfl, hw⟩ := link v _ h.1 h.2
    exact ⟨w, rfl, .single hw⟩
  | tail _ h ih =>
    obtain ⟨u, rfl, hu⟩ := ih
    obtain ⟨w, rfl, hw⟩ := link u _ h.1 h.2
    exact ⟨w, rfl, hu.tail hw⟩

/-- The same by ids, as one who asks the graph sees it. -/
theorem approaches_iff (hg : Indexes catalog nodes edges g) {e : Fin g.size} :
    (∃ x, (g.entry.map g.idAt = .ok x ∨ (∃ node, g.node? x = some node ∧ node.isConditional = true) ∧ g.outDegree x = 1) ∧
      TransGen (fun v w => w ∈ g.successors v ∧ v ∉ g.branchStartsOf (g.idAt e)) x (g.idAt e)) ↔ g.Approaches e e := by
  constructor
  · rintro ⟨x, hx, h⟩
    have hroot : ∃ v, g.idAt v = x ∧ g.Root v := by
      rcases hx with hx | ⟨⟨node, hnode, hc⟩, hone⟩
      · cases he : g.entry with
        | error cause =>
          rw [he] at hx
          cases hx
        | ok v =>
          rw [he] at hx
          cases hx
          exact ⟨v, rfl, Or.inl he⟩
      · obtain ⟨v, rfl, rfl⟩ := hg.exists_of_node? hnode
        rw [hg.outDegree_idAt] at hone
        exact ⟨v, rfl, Or.inr ⟨hc, hone⟩⟩
    obtain ⟨v, rfl, hv⟩ := hroot
    obtain ⟨w, hw, h⟩ := hg.exists_avoids h
    exact ⟨v, hv, hg.ids_injective hw ▸ h⟩
  · rintro ⟨v, hv, h⟩
    refine ⟨g.idAt v, ?_, TransGen.lift g.idAt (fun u w hl => ?_) v e h⟩
    · rcases hv with hv | ⟨hc, hone⟩
      · exact Or.inl (by rw [hv]; rfl)
      · exact Or.inr ⟨⟨g.node v, hg.node?_idAt v, hc⟩, by simpa using hone⟩
    · exact ⟨hg.mem_successors_idAt.2 hl.1, fun hm => hl.2 (hg.mem_branchStartsOf_idAt.1 hm)⟩

end Graph.Indexes

/-- A flow without loops, compiled without interceptors, has all its nodes in its plan exactly under this condition: to every
merge node that several branch starts share and with which the first structure is not paired, links lead that leave no branch
start paired with it, from the entry or from a conditional node with a single branch. -/
theorem every_node_covered_iff {c : Compiler} (hc : c.chain = []) {f : Flow} {g : Graph} (hg : c.index f = .ok g)
    (hacyclic : g.Acyclic) {route : Route} (hr : c.compile f = .ok route) :
    (∀ n ∈ f.nodes, n.id ∈ route.nodeIds) ↔
      ∀ e, 1 < (g.branchStartsOf e).length → route.firstStart.bind g.branchEnd? ≠ some e →
        ∃ x, (g.entry.map g.idAt = .ok x ∨ (∃ node, g.node? x = some node ∧ node.isConditional = true) ∧ g.outDegree x = 1) ∧
          TransGen (fun v w => w ∈ g.successors v ∧ v ∉ g.branchStartsOf e) x e := by
  have h : Indexes c.catalog f.nodes f.edges g := indexes_of_build hg
  obtain ⟨entry, hentry, hunfolds⟩ := Compiler.unfolds_of_compileGraph hc (Compiler.compileGraph_of_compile hg hr)
  have hfirst : ∀ e : Fin g.size, route.firstStart.bind g.branchEnd? ≠ some (g.idAt e) ↔
      ∀ f, Element.firstStart none route.steps = some (g.idAt f) → g.pairing.mergeOf.get f ≠ some e := by
    intro e
    constructor
    · intro hne f hf hm
      exact hne (by rw [Route.firstStart, hf, Option.bind_some, h.branchEnd?_idAt_iff.2 hm])
    · intro hall hb
      obtain ⟨start, hstart, hend⟩ := Option.bind_eq_some_iff.1 hb
      obtain ⟨f, hf, -⟩ := Option.bind_eq_some_iff.1 hend
      obtain rfl := h.find?_eq_some_iff.1 hf
      exact hall f hstart (h.branchEnd?_idAt_iff.1 hend)
  constructor
  · intro hall e hshared hne
    obtain ⟨v, rfl⟩ := h.exists_of_branchStartsOf (Nat.lt_trans Nat.zero_lt_one hshared)
    have hv := h.shared_idAt_iff.1 hshared
    have hemits : Emits g route.steps v := by
      have hbranch := h.not_branch_of_ends hv.ends
      rcases h.origin v with ⟨n, hn, kind, -, hnode⟩ | ⟨n, -, -, b, -, hnode⟩
      · have hmem := hall n hn
        rw [← idAt_of_declared hnode] at hmem
        exact hmem
      · rw [hnode] at hbranch
        cases hbranch
    refine h.approaches_iff.2 (hunfolds.approaches h hacyclic hv (.entry entry) ((hfirst v).1 hne) ?_ hemits)
    exact Or.inr (Or.inl hentry)
  · intro hshared n hn
    obtain ⟨v, kind, hkind, hv⟩ := h.declared hn
    rw [← idAt_of_declared hv]
    refine hunfolds.emits_all h hacyclic hentry (fun e he hf => ?_) v (by rw [hv]; exact Node.isBranch_declared hkind)
    exact h.approaches_iff.1 (hshared (g.idAt e) (h.shared_idAt_iff.2 he) ((hfirst e).2 hf))

/-- The condition for `Flow.stages`. -/
theorem every_node_covered_iff_stages : ∃ g route, Compiler.index {} Flow.stages = .ok g ∧ g.Acyclic ∧
    Compiler.compile {} Flow.stages = .ok route ∧
      ((∀ n ∈ Flow.stages.nodes, n.id ∈ route.nodeIds) ↔
        ∀ e, 1 < (g.branchStartsOf e).length → route.firstStart.bind g.branchEnd? ≠ some e →
          ∃ x, (g.entry.map g.idAt = .ok x ∨
              (∃ node, g.node? x = some node ∧ node.isConditional = true) ∧ g.outDegree x = 1) ∧
            TransGen (fun v w => w ∈ g.successors v ∧ v ∉ g.branchStartsOf e) x e) := by
  obtain ⟨g, hg, hacyclic⟩ : ∃ g, Compiler.index {} Flow.stages = .ok g ∧ g.Acyclic := by
    decide +kernel
  obtain ⟨route, hr⟩ : ∃ route, Compiler.compile {} Flow.stages = .ok route := by
    decide +kernel
  exact ⟨g, route, hg, hacyclic, hr, every_node_covered_iff rfl hg hacyclic hr⟩

/-- The plan of `Flow.stages` does not have I: D leaves it to the outermost structure, which is at A and ends at D. -/
theorem stages_loses_node : ∃ g route, Compiler.index {} Flow.stages = .ok g ∧ g.Acyclic ∧
    Compiler.compile {} Flow.stages = .ok route ∧ ∃ n ∈ Flow.stages.nodes, n.id ∉ route.nodeIds := by
  obtain ⟨g, hg, hacyclic⟩ : ∃ g, Compiler.index {} Flow.stages = .ok g ∧ g.Acyclic := by
    decide +kernel
  obtain ⟨route, hr, hlost⟩ : ∃ route, Compiler.compile {} Flow.stages = .ok route ∧ "I" ∉ route.nodeIds := by
    decide +kernel
  exact ⟨g, route, hg, hacyclic, hr, { id := "I", component := "script" }, List.mem_map_of_mem (by decide), hlost⟩

end FlowPlan
