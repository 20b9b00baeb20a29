import FlowPlan.Proofs.Compile.Parts
import FlowPlan.Proofs.Compile.Walks

/-!
# Bodies and their merge node

The bodies of a choice or parallel element stop before the merge node with which its start is paired, so that what is behind the
merge node runs once, after the element. A conditional node with a single branch is no branch start: it has no merge node, and its
body runs on. In a graph without loops the merge node stands in one of the bodies exactly if it is reached around the stop,
through a conditional node with a single branch (`merge_in_body_iff`).

What leaves a set of nodes that links enter at one node only is one statement for the merge node alone and for all that follows it
(`Unfolds.bypasses`).
-/

namespace FlowPlan

open FlowPlan.Graph Relation

variable {catalog : NodeCatalog} {nodes : List Flow.Node} {edges : List Flow.Edge} {g : Graph}

/-! ## Around the stop -/

namespace Graph

variable (g : Graph)

/-- A conditional node with a single branch, behind `x`. -/
structure Single (x y : Fin g.size) : Prop where
  conditional : (g.node y).isConditional = true
  one : (g.successorsAt y).length = 1
  behind : g.Leads x y

/-- Behind `x`, links lead from a conditional node with a single branch to `v` and leave no branch start paired with `e`. -/
def Bypasses (x e v : Fin g.size) : Prop :=
  ∃ y, g.Single x y ∧ TransGen (g.Avoids e) y v

/-- A set of nodes that links enter at `e` only. -/
def EntersAt (e : Fin g.size) (inside : Fin g.size → Prop) : Prop :=
  ∀ v w, w ∈ g.successorsAt v → inside w → w = e ∨ inside v

variable {g}

/-- A link goes on from where links have led around the stop. -/
theorem bypasses_link {x e v w : Fin g.size} (h : g.Single x v ∨ g.Bypasses x e v) (hw : g.Avoids e v w) :
    g.Bypasses x e w := by
  rcases h with h | ⟨y, hy, h⟩
  · exact ⟨v, h, .single hw⟩
  · exact ⟨y, hy, h.tail hw⟩

/-- Who gets inside comes by the only way in. -/
theorem EntersAt.leads {e v w : Fin g.size} {inside : Fin g.size → Prop} (h : g.EntersAt e inside) (hl : g.Leads v w)
    (hw : inside w) (hv : ¬ inside v) : g.Leads v e := by
  induction hl using TransGen.head_induction_on with
  | @single v hl => exact ((h v w hl hw).resolve_right hv) ▸ .of_mem hl
  | @head v u hl _ ih =>
    by_cases hu : inside u
    · exact ((h v u hl hu).resolve_right hv) ▸ .of_mem hl
    · exact .trans (.of_mem hl) (ih hu)

end Graph

/-- A place lies outside of a set, or at the only way into it. -/
def Place.Outside {n : Nat} (inside : Fin n → Prop) (e : Fin n) : Place n → Prop
  | .into v => inside v → v = e
  | .after v => ¬ inside v
  | .behind v => ¬ inside v

/-- Links have led to a place around the stop. -/
def Place.Bypassed (g : Graph) (x e : Fin g.size) : Place g.size → Prop
  | .into v => g.Bypasses x e v
  | .after v => g.Single x v ∨ g.Bypasses x e v
  | .behind v => g.Single x v ∨ g.Bypasses x e v

/-- The outermost open branch start is `x` or one around it. -/
def Around (g : Graph) (x : Fin g.size) (first : Option (Fin g.size)) : Prop :=
  ∃ f, first = some f ∧ (f = x ∨ g.Leads f x)

/-- A start that is opened further in does not change which one is the outermost. -/
theorem Around.opened {x : Fin g.size} {first : Option (Fin g.size)} (h : Around g x first) (v : Fin g.size) :
    Around g x (first.or (some v)) := by
  obtain ⟨f, rfl, hf⟩ := h
  exact ⟨f, rfl, hf⟩

/-- A place inside the element that `x` opens, outside of a set that links enter at `e` only. The unfolding there stops before `e`, or
links have led around the stop. -/
structure Inside (g : Graph) (x e : Fin g.size) (inside : Fin g.size → Prop) (place : Place g.size)
    (first stop : Option (Fin g.size)) : Prop where
  around : Around g x first
  behind : g.Leads x place.node
  outside : place.Outside inside e
  stops : place.LeadsTo g e → stop = some e ∨ place.Bypassed g x e

section Inside

variable {x e : Fin g.size}

namespace Inside

variable {inside : Fin g.size → Prop} {v w merge : Fin g.size} {first stop : Option (Fin g.size)}

/-- The way into the set is taken around the stop. -/
theorem bypasses (h : Inside g x e inside (.into v) first stop) (hne : stop ≠ some v) (hv : inside v) : g.Bypasses x e e := by
  obtain rfl := h.outside hv
  exact (h.stops (Or.inl rfl)).resolve_left hne

/-- What follows a plain node. -/
theorem step (h : Inside g x e inside (.into v) first stop) (hv : ¬ inside v) : Inside g x e inside (.after v) first stop :=
  ⟨h.around, h.behind, hv, fun hl => (h.stops (Or.inr hl)).imp_right Or.inr⟩

/-- What continues a choice. -/
theorem behindChoice (h : Inside g x e inside (.into v) first stop) (hv : ¬ inside v) :
    Inside g x e inside (.behind v) (first.or (some v)) stop :=
  ⟨h.around.opened v, h.behind, hv, fun hl => (h.stops (Or.inr hl)).imp_right Or.inr⟩

/-- A body of a choice. A branch start that leads to `e` would be paired with it, so a choice that goes on to `e` without stopping
there has a single branch. -/
theorem arm (hg : Indexes catalog nodes edges g) (hacyclic : g.Acyclic) (hx : g.pairing.mergeOf.get x = some e)
    (hin : g.EntersAt e inside) (h : Inside g x e inside (.into v) first stop) (hv : ¬ inside v)
    (hc : (g.node v).isConditional = true) (hw : w ∈ g.successorsAt v) (hwb : (g.node w).isBranch = true) :
    Inside g x e inside (.after w) (first.or (some v)) (g.pairing.mergeOf.get v) where
  around := h.around.opened v
  behind := .trans h.behind (.of_mem hw)
  outside := by
    intro hw'
    rcases hin v w hw hw' with rfl | hv'
    · rw [hg.not_branch_of_ends (mergeOf_eq_some_iff.1 hx).ends] at hwb
      cases hwb
    · exact hv hv'
  stops := by
    intro hl
    by_cases hm : g.pairing.mergeOf.get v = some e
    · exact Or.inl hm
    · have hone : ¬ 1 < (g.successorsAt v).length := fun hmany =>
        hm (mergeOf_of_stop hacyclic hx (Or.inr h.behind) hmany (.trans (.of_mem hw) hl))
      have hpos := List.length_pos_of_mem hw
      have hsingle : g.Single x v := ⟨hc, by omega, h.behind⟩
      exact Or.inr (Or.inr (bypasses_link (Or.inl hsingle) ⟨hw, hm⟩))

/-- What a link leads to leads on to `e`, and so does the node in front of the link. -/
theorem leads_of_link (hw : w ∈ g.successorsAt v) (hl : w = e ∨ g.Leads w e) : g.Leads v e := by
  rcases hl with rfl | hl
  · exact .of_mem hw
  · exact .trans (.of_mem hw) hl

/-- What the only link leads to. -/
theorem follows (hin : g.EntersAt e inside) (h : Inside g x e inside (.after v) first stop) (hs : g.successorsAt v = [w]) :
    Inside g x e inside (.into w) first stop := by
  have hw : w ∈ g.successorsAt v := hs ▸ List.mem_singleton_self w
  refine ⟨h.around, .trans h.behind (.of_mem hw), fun hw' => (hin v w hw hw').resolve_right h.outside, fun hl => ?_⟩
  refine (h.stops (leads_of_link hw (hl.imp_left Eq.symm))).imp_right fun hb => ?_
  exact bypasses_link hb ⟨hw, mergeOf_ne_of_single hs⟩

/-- A lane of a parallel element stops before `e` if it leads there. -/
theorem lane (hacyclic : g.Acyclic) (hx : g.pairing.mergeOf.get x = some e) (hin : g.EntersAt e inside)
    (h : Inside g x e inside (.after v) first stop) (hmany : 1 < (g.successorsAt v).length) (hw : w ∈ g.successorsAt v) :
    Inside g x e inside (.into w) (first.or (some v)) (g.pairing.mergeOf.get v) := by
  refine ⟨h.around.opened v, .trans h.behind (.of_mem hw), fun hw' => (hin v w hw hw').resolve_right h.outside, fun hl => ?_⟩
  exact Or.inl (mergeOf_of_stop hacyclic hx (Or.inr h.behind) hmany (leads_of_link hw (hl.imp_left Eq.symm)))

/-- What continues a parallel element. -/
theorem behindFork (h : Inside g x e inside (.after v) first stop) : Inside g x e inside (.behind v) (first.or (some v)) stop :=
  ⟨h.around.opened v, h.behind, h.outside, h.stops⟩

/-- The merge node of an element inside leads to `e` no more: if the element led to `e`, that would be its merge node too, and left
to an element further out. -/
theorem resumes (hacyclic : g.Acyclic) (hx : g.pairing.mergeOf.get x = some e) (hin : g.EntersAt e inside)
    (h : Inside g x e inside (.behind v) first stop) (hm : g.pairing.mergeOf.get v = some merge)
    (hopen : g.Shared merge → first = some v) : Inside g x e inside (.into merge) first stop := by
  have hmerges := mergeOf_eq_some_iff.1 hm
  have hve : ¬ g.Leads v e := by
    intro hve
    have hve' := mergeOf_of_stop hacyclic hx (Or.inr h.behind) hmerges.start hve
    obtain rfl : merge = e := Option.some.inj (hm.symm.trans hve')
    obtain ⟨f, rfl, hf⟩ := h.around
    cases hopen (shared_of_two hx hm (hacyclic.ne h.behind))
    rcases hf with rfl | hf
    · exact absurd h.behind (hacyclic v)
    · exact absurd (hf.trans h.behind) (hacyclic v)
  refine ⟨h.around, h.behind.trans hmerges.leads, fun hi => absurd (hin.leads hmerges.leads hi h.outside) hve, ?_⟩
  rintro (rfl | hl)
  · exact absurd hmerges.leads hve
  · exact absurd (hmerges.leads.trans hl) hve

end Inside

/-- Inside the element that `x` opens, nothing of a set that links enter at the merge node of `x` only is unfolded, unless links
lead around the stop. -/
theorem Unfolds.bypasses (hg : Indexes catalog nodes edges g) (hacyclic : g.Acyclic) (hx : g.pairing.mergeOf.get x = some e)
    {inside : Fin g.size → Prop} (hin : g.EntersAt e inside) {place : Place g.size} {first stop : Option (Fin g.size)}
    {path : List (Fin g.size)} {es : List Element} (h : Unfolds g place first stop path es)
    (hplace : Inside g x e inside place first stop) {u : Fin g.size} (hu : Emits g es u) (hinside : inside u) :
    g.Bypasses x e e := by
  induction h with
  | halted => exact absurd hu emits_nil
  | looped _ => exact absurd hu emits_nil
  | @step v first stop path rest hne _ _ _ ih =>
    by_cases hv : inside v
    · exact hplace.bypasses hne hv
    · rcases hg.emits_step.1 hu with rfl | hu
      · exact absurd hinside hv
      · exact ih (hplace.step hv) hu
  | @choice v first stop path ids id bodies rest hne _ hk _ hbranches hkinds _ _ ihbodies ihrest =>
    by_cases hv : inside v
    · exact hplace.bypasses hne hv
    · rcases (hg.emits_choice hk hbranches hkinds).1 hu with rfl | ⟨b, hb, hu⟩ | hu
      · exact absurd hinside hv
      · obtain ⟨parent, hkb⟩ := hkinds b hb
        have hwb : (g.node b.branch).isBranch = true := by rw [Node.isBranch, hkb]
        have hw := hbranches ▸ List.mem_map_of_mem hb
        exact ihbodies b hb (hplace.arm hg hacyclic hx hin hv (isConditional_of_kind hk) hw hwb) hu
      · exact ihrest (hplace.behindChoice hv) hu
  | ends _ => exact absurd hu emits_nil
  | follows hs _ ih => exact ih (hplace.follows hin hs) hu
  | fork hmany hsuccessors _ _ ihlanes ihrest =>
    rcases emits_parallel.1 hu with ⟨l, hl, hu⟩ | hu
    · exact ihlanes l hl (hplace.lane hacyclic hx hin hmany (hsuccessors ▸ List.mem_map_of_mem hl)) hu
    · exact ihrest hplace.behindFork hu
  | apart _ => exact absurd hu emits_nil
  | left _ _ _ => exact absurd hu emits_nil
  | resumes hm hopen _ ih => exact ih (hplace.resumes hacyclic hx hin hm hopen) hu

/-- Where the links of a place lead to `e` and leave no branch start paired with it. -/
def Place.Heads (g : Graph) (e : Fin g.size) : Place g.size → Prop
  | .into v => ReflTransGen (g.Avoids e) v e
  | .after v => TransGen (g.Avoids e) v e
  | .behind _ => False

/-- Links lead from a place to a conditional node with a single branch, and from there to `e` around its branch starts. -/
def Place.Bypassing (g : Graph) (e : Fin g.size) : Place g.size → Prop
  | .into v => ∃ y, (g.node y).isConditional = true ∧ (g.successorsAt y).length = 1 ∧ (y = v ∨ g.Leads v y) ∧
      TransGen (g.Avoids e) y e
  | .after v => ∃ y, (g.node y).isConditional = true ∧ (g.successorsAt y).length = 1 ∧ g.Leads v y ∧ TransGen (g.Avoids e) y e
  | .behind _ => False

/-- What bypasses the branch starts of a merge node leads to it all the same. -/
theorem Place.Bypassing.leads {v : Fin g.size} (h : (Place.after v).Bypassing g e) : g.Leads v e := by
  obtain ⟨y, -, -, hvy, hy⟩ := h
  exact hvy.trans (Avoids.leads hy)

/-- The links to the conditional node begin at the node itself. -/
theorem Place.Bypassing.link {v : Fin g.size} (h : (Place.after v).Bypassing g e) :
    ∃ w ∈ g.successorsAt v, (Place.into w).Bypassing g e := by
  obtain ⟨y, hc, hone, hvy, hy⟩ := h
  obtain ⟨w, hw, hwy⟩ := TransGen.head'_iff.1 hvy
  exact ⟨w, hw, y, hc, hone, reflTransGen_iff_eq_or_transGen.1 hwy, hy⟩

/-- A node that is not conditional is not the conditional node either. -/
theorem Place.Bypassing.after {v : Fin g.size} (h : (Place.into v).Bypassing g e) (hv : (g.node v).isConditional = false) :
    (Place.after v).Bypassing g e := by
  obtain ⟨y, hc, hone, rfl | hvy, hy⟩ := h
  · rw [hv] at hc
    cases hc
  · exact ⟨y, hc, hone, hvy, hy⟩

/-- A place inside the element that `x` opens, from which links lead to the merge node `e` of `x`: around its branch starts when
nothing stops the unfolding before `e`, and otherwise through a conditional node with a single branch. -/
structure Seeks (g : Graph) (x e : Fin g.size) (place : Place g.size) (stop : Option (Fin g.size)) : Prop where
  behind : g.Leads x place.node
  stops : stop = none ∨ stop = some e
  links : stop = none ∧ place.Heads g e ∨ place.Bypassing g e

namespace Seeks

variable {v w : Fin g.size} {stop : Option (Fin g.size)}

/-- Links do not lead from `e` back to it, so the unfolding has not stopped yet. -/
theorem not_halted (hacyclic : g.Acyclic) : ¬ Seeks g x e (.into v) (some v) := by
  rintro ⟨-, hstop, ⟨hnone, -⟩ | ⟨y, -, -, hvy, hy⟩⟩
  · cases hnone
  · obtain rfl : v = e := by simpa using hstop
    rcases hvy with rfl | hvy
    · exact hacyclic y (Avoids.leads hy)
    · exact hacyclic v (hvy.trans (Avoids.leads hy))

/-- A plain node is `e`, or links lead on from it. -/
theorem step (h : Seeks g x e (.into v) stop) (hk : (g.node v).kind = .plain) : v = e ∨ Seeks g x e (.after v) stop := by
  rcases h.links with ⟨hnone, hv⟩ | hl
  · rcases reflTransGen_iff_eq_or_transGen.1 hv with rfl | hv
    · exact Or.inl rfl
    · exact Or.inr ⟨h.behind, h.stops, Or.inl ⟨hnone, hv⟩⟩
  · exact Or.inr ⟨h.behind, h.stops, Or.inr (hl.after (not_isConditional_of_plain hk))⟩

/-- A node from which links lead around the branch starts of `e` has a single link, and no merge node. -/
theorem mergeOf_of_heads (hacyclic : g.Acyclic) (hx : g.pairing.mergeOf.get x = some e) (hxv : g.Leads x v)
    (hv : TransGen (g.Avoids e) v e) : g.pairing.mergeOf.get v = none := by
  obtain ⟨w, ⟨-, hm⟩, -⟩ := TransGen.head'_iff.1 hv
  exact mergeOf_eq_none fun hmany => hm (mergeOf_of_stop hacyclic hx (Or.inr hxv) hmany (Avoids.leads hv))

/-- A conditional node is `e`, or links lead on from one of its branches. -/
theorem arm (hg : Indexes catalog nodes edges g) (hacyclic : g.Acyclic) (hx : g.pairing.mergeOf.get x = some e)
    (h : Seeks g x e (.into v) stop) (hbranch : ∀ w ∈ g.successorsAt v, (g.node w).isBranch = true) :
    v = e ∨ ∃ w ∈ g.successorsAt v, Seeks g x e (.after w) (g.pairing.mergeOf.get v) := by
  -- links lead around the branch starts of `e`: the body of the single branch runs on
  have around : TransGen (g.Avoids e) v e → ∃ w ∈ g.successorsAt v, Seeks g x e (.after w) (g.pairing.mergeOf.get v) := by
    intro hv
    have hnone := mergeOf_of_heads hacyclic hx h.behind hv
    obtain ⟨w, ⟨hw, -⟩, hwe⟩ := TransGen.head'_iff.1 hv
    have hne : e ≠ w := by
      rintro rfl
      have hb := hbranch e hw
      rw [hg.not_branch_of_ends (mergeOf_eq_some_iff.1 hx).ends] at hb
      cases hb
    have hafter := (reflTransGen_iff_eq_or_transGen.1 hwe).resolve_left hne
    exact ⟨w, hw, .trans h.behind (.of_mem hw), Or.inl hnone, Or.inl ⟨hnone, hafter⟩⟩
  rcases h.links with ⟨-, hv⟩ | ⟨y, hc, hone, rfl | hvy, hy⟩
  · rcases reflTransGen_iff_eq_or_transGen.1 hv with rfl | hv
    · exact Or.inl rfl
    · exact Or.inr (around hv)
  · exact Or.inr (around hy)
  · have hv : (Place.after v).Bypassing g e := ⟨y, hc, hone, hvy, hy⟩
    obtain ⟨w, hw, hwe⟩ := hv.link
    have hstop : g.pairing.mergeOf.get v = none ∨ g.pairing.mergeOf.get v = some e := by
      by_cases hmany : 1 < (g.successorsAt v).length
      · exact Or.inr (mergeOf_of_stop hacyclic hx (Or.inr h.behind) hmany hv.leads)
      · exact Or.inl (mergeOf_eq_none hmany)
    have hafter := hwe.after (not_isConditional_of_isBranch (hbranch w hw))
    exact Or.inr ⟨w, hw, .trans h.behind (.of_mem hw), hstop, Or.inr hafter⟩

/-- Some link leads on. -/
theorem link (h : Seeks g x e (.after v) stop) :
    ∃ w ∈ g.successorsAt v, stop = none ∧ (Place.into w).Heads g e ∨ (Place.into w).Bypassing g e := by
  rcases h.links with ⟨hnone, hv⟩ | hv
  · obtain ⟨w, ⟨hw, -⟩, hwe⟩ := TransGen.head'_iff.1 hv
    exact ⟨w, hw, Or.inl ⟨hnone, hwe⟩⟩
  · obtain ⟨w, hw, hwe⟩ := hv.link
    exact ⟨w, hw, Or.inr hwe⟩

/-- What the only link leads to. -/
theorem follows (h : Seeks g x e (.after v) stop) (hs : g.successorsAt v = [w]) : Seeks g x e (.into w) stop := by
  obtain ⟨u, hu, hl⟩ := h.link
  obtain rfl : u = w := by simpa [hs] using hu
  exact ⟨.trans h.behind (.of_mem hu), h.stops, hl⟩

/-- A fan-out that leads to `e` is paired with it, and one of its lanes leads to a conditional node with a single branch. -/
theorem lane (hacyclic : g.Acyclic) (hx : g.pairing.mergeOf.get x = some e) (h : Seeks g x e (.after v) stop)
    (hmany : 1 < (g.successorsAt v).length) : ∃ w ∈ g.successorsAt v, Seeks g x e (.into w) (g.pairing.mergeOf.get v) := by
  have merges : g.Leads v e → g.pairing.mergeOf.get v = some e := mergeOf_of_stop hacyclic hx (Or.inr h.behind) hmany
  rcases h.links with ⟨-, hv⟩ | hv
  · obtain ⟨w, hw, -⟩ := TransGen.head'_iff.1 hv
    exact absurd (merges (Avoids.leads hv)) hw.2
  · obtain ⟨w, hw, hwe⟩ := hv.link
    exact ⟨w, hw, .trans h.behind (.of_mem hw), Or.inr (merges hv.leads), Or.inr hwe⟩

/-- No links lead on from behind an element. -/
theorem not_behind : ¬ Seeks g x e (.behind v) stop := by
  rintro ⟨-, -, ⟨-, h⟩ | h⟩
  · exact h
  · exact h

end Seeks

/-- What is unfolded without stopping before the merge node of `x` has it where links lead to it around its branch starts. With the
stop, links that lead around it through a conditional node with a single branch bring it in: the body of that node runs on. -/
theorem Unfolds.emits_merge (hg : Indexes catalog nodes edges g) (hacyclic : g.Acyclic) (hx : g.pairing.mergeOf.get x = some e)
    {place : Place g.size} {first stop : Option (Fin g.size)} {path : List (Fin g.size)} {es : List Element}
    (h : Unfolds g place first stop path es) (hp : Placed g place first stop path) (hplace : Seeks g x e place stop) :
    Emits g es e := by
  induction h with
  | halted => exact absurd hplace (Seeks.not_halted hacyclic)
  | looped hm => exact absurd hm (hp.not_mem_path hacyclic)
  | step _ _ hk _ ih =>
    rcases hplace.step hk with rfl | hafter
    · exact hg.emits_step.2 (Or.inl rfl)
    · exact hg.emits_step.2 (Or.inr (ih (hp.step hk) hafter))
  | @choice v first stop path ids id bodies rest _ _ hk _ hbranches hkinds _ _ ihbodies _ =>
    have hbranch : ∀ w ∈ g.successorsAt v, ∃ b ∈ bodies, b.branch = w := fun w hw => List.mem_map.1 (hbranches ▸ hw)
    have emits : e = v ∨ (∃ b ∈ bodies, Emits g b.body e) ∨ Emits g rest e → Emits g (g.choiceOn id v bodies :: rest) e :=
      (hg.emits_choice hk hbranches hkinds).2
    refine (hplace.arm hg hacyclic hx fun w hw => ?_).elim (fun hv => emits (Or.inl hv.symm)) ?_
    · obtain ⟨b, hb, rfl⟩ := hbranch w hw
      obtain ⟨parent, hkb⟩ := hkinds b hb
      rw [Node.isBranch, hkb]
    · rintro ⟨w, hw, hafter⟩
      obtain ⟨b, hb, rfl⟩ := hbranch w hw
      obtain ⟨parent, hkb⟩ := hkinds b hb
      exact emits (Or.inr (Or.inl ⟨b, hb, ihbodies b hb (hp.arm hkb hw) hafter⟩))
  | ends hs =>
    obtain ⟨w, hw, -⟩ := hplace.link
    rw [hs] at hw
    cases hw
  | follows hs _ ih => exact ih (hp.follows (hs ▸ List.mem_singleton_self _)) (hplace.follows hs)
  | fork hmany hsuccessors _ _ ihlanes _ =>
    obtain ⟨w, hw, hinto⟩ := hplace.lane hacyclic hx hmany
    obtain ⟨l, hl, rfl⟩ := List.mem_map.1 (hsuccessors ▸ hw)
    exact emits_parallel.2 (Or.inl ⟨l, hl, ihlanes l hl (hp.lane hw) hinto⟩)
  | apart _ => exact absurd hplace Seeks.not_behind
  | left _ _ _ => exact absurd hplace Seeks.not_behind
  | resumes _ _ _ _ => exact absurd hplace Seeks.not_behind

end Inside

/-! ## The merge node in a body -/

/-- The merge node of a choice or parallel element stands in one of its bodies exactly if some of the links behind its start lead
from a conditional node with a single branch to the merge node and leave none of the branch starts paired with it. This holds of
the plan of every flow without loops that is compiled without interceptors. So the bodies stop before the merge node when every
conditional node has two branches or more. -/
theorem merge_in_body_iff {c : Compiler} (hc : c.chain = []) {f : Flow} {g : Graph} (hg : c.index f = .ok g)
    (hacyclic : g.Acyclic) {route : Route} (hr : c.compile f = .ok route) {start e : String} {bodies : List (List Element)}
    (ho : Opens g none route.steps start bodies) (he : g.branchEnd? start = some e) :
    (∃ body ∈ bodies, e ∈ (Element.nodesOfBody body).map Step.id) ↔
      ∃ y node, g.node? y = some node ∧ node.isConditional = true ∧ g.outDegree y = 1 ∧ g.isReachable start y = true ∧
        TransGen (fun v w => w ∈ g.successors v ∧ v ∉ g.branchStartsOf e) y e := by
  have h : Indexes c.catalog f.nodes f.edges g := indexes_of_build hg
  obtain ⟨entry, -, hunfolds⟩ := Compiler.unfolds_of_compileGraph hc (Compiler.compileGraph_of_compile hg hr)
  obtain ⟨x, rfl, hopened⟩ := hunfolds.opened h (.entry entry) ho
  rw [h.branchEnd?_idAt, Option.map_eq_some_iff] at he
  obtain ⟨e, hx, rfl⟩ := he
  constructor
  · rintro ⟨body, hbody, hin⟩
    obtain ⟨w, hw, place, first, path, hplace, -, hu, hfirst⟩ := hopened.sound body hbody
    have hnot : (g.node e).isBranch = false := h.not_branch_of_ends (mergeOf_eq_some_iff.1 hx).ends
    have hout : place.Outside (· = e) e ∧ g.Leads x place.node := by
      rcases hplace with rfl | ⟨rfl, hwb⟩
      · exact ⟨id, .of_mem hw⟩
      · refine ⟨?_, .of_mem hw⟩
        rintro rfl
        rw [hnot] at hwb
        cases hwb
    have hin' : g.EntersAt e (· = e) := fun _ _ _ => Or.inl
    obtain ⟨y, ⟨hy, hone, hxy⟩, hye⟩ := hu.bypasses h hacyclic hx hin' ⟨hfirst, hout.2, hout.1, fun _ => Or.inl hx⟩ hin rfl
    refine ⟨g.idAt y, g.node y, h.node?_idAt y, hy, by simpa using hone, by simpa using hxy, ?_⟩
    refine TransGen.lift g.idAt (fun u v hl => ?_) y e hye
    exact ⟨h.mem_successors_idAt.2 hl.1, fun hm => hl.2 (h.mem_branchStartsOf_idAt.1 hm)⟩
  · rintro ⟨y, node, hnode, hy, hone, hxy, hye⟩
    obtain ⟨y, rfl, rfl⟩ := h.exists_of_node? hnode
    simp only [h.outDegree_idAt, h.isReachable_idAt_iff] at hone hxy
    obtain ⟨e', he', hye⟩ := h.exists_avoids hye
    obtain rfl : e = e' := (h.ids_injective he').symm
    have hbehind : (Place.after x).Bypassing g e := ⟨y, hy, hone, hxy, hye⟩
    obtain ⟨w, hw, hwe⟩ := hbehind.link
    obtain ⟨body, hbody, place, first, path, hplace, hp, hu, -⟩ := hopened.complete w hw
    rcases hplace with rfl | ⟨rfl, hwb⟩
    · exact ⟨body, hbody, hu.emits_merge h hacyclic hx hp ⟨.of_mem hw, Or.inr hx, Or.inr hwe⟩⟩
    · have hafter := hwe.after (not_isConditional_of_isBranch hwb)
      exact ⟨body, hbody, hu.emits_merge h hacyclic hx hp ⟨.of_mem hw, Or.inr hx, Or.inr hafter⟩⟩

/-- A fan-out at A that ends at D. One of its lanes is a conditional node with a single branch. -/
def Flow.gated : Flow where
  id := "gated"
  nodes := [
    { id := "A", component := "script" },
    { id := "Y", component := "choice", branches := [⟨"y", some "amount < 100"⟩] },
    { id := "B", component := "script" },
    { id := "D", component := "script" }]
  edges := [("A", "Y"), ("A", "B"), ("y", "D"), ("B", "D")].map fun (source, target) => { source := source, target := target }

/-- The bodies of a parallel element behind a first step, and where it starts. -/
def Element.firstFork : List Element → Option (String × List (List Element))
  | .sequential node :: .parallel _ lanes :: _ => some (node.id, lanes.map (·.body))
  | _ => none

/-- The first parallel element that a search of a plan finds is opened there. -/
theorem opens_of_firstFork {g : Graph} {steps : List Element} {id : String} {bodies : List (List Element)}
    (h : Element.firstFork steps = some (id, bodies)) : Opens g none steps id bodies := by
  unfold Element.firstFork at h
  split at h
  · cases h
    exact .behindStep .parallel
  · cases h

/-- The bodies of the parallel element at A in the plan of `Flow.gated`. -/
theorem merge_in_body_iff_gated : ∃ g route bodies, Compiler.index {} Flow.gated = .ok g ∧ g.Acyclic ∧
    Compiler.compile {} Flow.gated = .ok route ∧ Opens g none route.steps "A" bodies ∧ g.branchEnd? "A" = some "D" ∧
      ((∃ body ∈ bodies, "D" ∈ (Element.nodesOfBody body).map Step.id) ↔
        ∃ y node, g.node? y = some node ∧ node.isConditional = true ∧ g.outDegree y = 1 ∧ g.isReachable "A" y = true ∧
          TransGen (fun v w => w ∈ g.successors v ∧ v ∉ g.branchStartsOf "D") y "D") := by
  obtain ⟨g, hg, hacyclic, he⟩ : ∃ g, Compiler.index {} Flow.gated = .ok g ∧ g.Acyclic ∧ g.branchEnd? "A" = some "D" := by
    decide +kernel
  obtain ⟨route, hr, hfork⟩ : ∃ route, Compiler.compile {} Flow.gated = .ok route ∧
      (Element.firstFork route.steps).map (·.1) = some "A" := by
    decide +kernel
  obtain ⟨⟨_, bodies⟩, hfork, rfl⟩ := Option.map_eq_some_iff.1 hfork
  have ho : Opens g none route.steps "A" bodies := opens_of_firstFork hfork
  exact ⟨g, route, bodies, hg, hacyclic, hr, ho, he, merge_in_body_iff rfl hg hacyclic hr ho he⟩

/-- D, where the fan-out at A ends, stands in the lane of Y too. -/
theorem gated_repeats_merge : ∃ g route bodies, Compiler.index {} Flow.gated = .ok g ∧ g.Acyclic ∧
    Compiler.compile {} Flow.gated = .ok route ∧ Opens g none route.steps "A" bodies ∧ g.branchEnd? "A" = some "D" ∧
      ∃ body ∈ bodies, "D" ∈ (Element.nodesOfBody body).map Step.id := by
  obtain ⟨g, hg, hacyclic, he⟩ : ∃ g, Compiler.index {} Flow.gated = .ok g ∧ g.Acyclic ∧ g.branchEnd? "A" = some "D" := by
    decide +kernel
  obtain ⟨route, hr, hfork⟩ : ∃ route, Compiler.compile {} Flow.gated = .ok route ∧
      (Element.firstFork route.steps).any (fun fork =>
        fork.1 == "A" && fork.2.any fun body => ((Element.nodesOfBody body).map Step.id).contains "D") = true := by
    decide +kernel
  obtain ⟨⟨id, bodies⟩, hfork, hat⟩ := (Option.any_eq_true _ _).1 hfork
  rw [Bool.and_eq_true, beq_iff_eq, List.any_eq_true] at hat
  obtain ⟨rfl, body, hbody, hin⟩ := hat
  exact ⟨g, route, bodies, hg, hacyclic, hr, opens_of_firstFork hfork, he, body, hbody, List.contains_iff_mem.1 hin⟩

end FlowPlan
