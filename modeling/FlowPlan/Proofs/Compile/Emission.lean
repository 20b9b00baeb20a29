import FlowPlan.Proofs.Compile.Unfolding
import FlowPlan.Proofs.Graph.Edges
import FlowPlan.Proofs.Plan

/-!
# The nodes of a plan

`Emits` says that a node stands somewhere in a sequence of elements. The bodies of a choice are those of the declared branches
of its node, in order (`Indexes.bodies_of_conditional`), and none of them is left out: what stands in an unfolded choice or
parallel element is what stands in its bodies (`Indexes.emits_choice`, `emits_parallel`).
-/

namespace FlowPlan

open FlowPlan.Graph

/-! ## The nodes of bodies -/

namespace Element

/-- The nodes inside a choice are those of its bodies. -/
theorem nodesOfBodies_eq (arms : List (Arm Element)) (otherwise : Option (List Element)) :
    nodesOfArms arms ++ nodesOfOtherwise otherwise = (bodiesOf arms otherwise).flatMap nodesOfBody :=
  eq_flatMap_bodiesOf rfl (fun _ _ => rfl) rfl (fun _ => rfl) arms otherwise

/-- The nodes under a choice are those of its bodies, the otherwise branch among them. -/
theorem mem_nodesOfBodies {arms : List (Arm Element)} {otherwise : Option (List Element)} {node : Step} :
    node ∈ nodesOfArms arms ++ nodesOfOtherwise otherwise ↔ ∃ body ∈ bodiesOf arms otherwise, node ∈ nodesOfBody body := by
  rw [nodesOfBodies_eq, List.mem_flatMap]

/-- The bodies of lanes, in order. -/
@[simp] theorem map_body_lanes {n : Nat} {id : String} {index : Nat} {lanes : List (LaneBody n)} :
    (LaneBody.lanes id index lanes).map (·.body) = lanes.map (·.body) := by
  induction lanes generalizing index with
  | nil => rfl
  | cons l rest ih => rw [LaneBody.lanes, List.map_cons, List.map_cons, ih]

/-- What is found in the lanes of a parallel element. -/
theorem eq_flatMap_lanes {α : Type} {ofBody : List Element → List α} {ofLanes : List (Lane Element) → List α}
    (hnil : ofLanes [] = []) (hcons : ∀ l rest, ofLanes (l :: rest) = ofBody l.body ++ ofLanes rest) {n : Nat} {id : String}
    {index : Nat} {lanes : List (LaneBody n)} :
    ofLanes (LaneBody.lanes id index lanes) = lanes.flatMap fun l => ofBody l.body := by
  rw [eq_flatMap hnil hcons, ← List.flatMap_map Lane.body, map_body_lanes, List.flatMap_map]

/-- The nodes of lanes do not depend on their ids. -/
theorem nodesOfLanes_eq {n : Nat} {id : String} {index : Nat} {lanes : List (LaneBody n)} :
    nodesOfLanes (LaneBody.lanes id index lanes) = lanes.flatMap fun l => nodesOfBody l.body :=
  eq_flatMap_lanes rfl fun _ _ => rfl

/-- A node of the lanes is one of a lane. -/
theorem mem_nodesOfLanes {n : Nat} {id : String} {index : Nat} {lanes : List (LaneBody n)} {node : Step} :
    node ∈ nodesOfLanes (LaneBody.lanes id index lanes) ↔ ∃ l ∈ lanes, node ∈ nodesOfBody l.body := by
  rw [nodesOfLanes_eq, List.mem_flatMap]

end Element

/-! ## The bodies of a choice -/

namespace Setting

variable {bodies : List (String × Option String × List Element)}

/-- The arms of a choice are its bodies with a condition. -/
theorem mem_armsOf {a : Arm Element} : a ∈ armsOf bodies ↔ (a.id, some a.condition, a.body) ∈ bodies := by
  constructor
  · intro h
    obtain ⟨⟨id, condition, body⟩, hb, ha⟩ := List.mem_filterMap.1 h
    obtain ⟨c, rfl, rfl⟩ := Option.map_eq_some_iff.1 ha
    exact hb
  · intro h
    exact List.mem_filterMap.2 ⟨_, h, rfl⟩

/-- The otherwise branch is the last body without a condition. -/
theorem otherwiseOf_eq : otherwiseOf bodies = ((bodies.filter (·.2.1.isNone)).map (·.2.2)).getLast? := by
  rw [otherwiseOf, ← List.filterMap_eq_filter, List.map_filterMap]
  refine congrArg _ (List.filterMap_congr ?_)
  rintro ⟨id, condition, body⟩ -
  cases condition <;> rfl

/-- With one body at most that has no condition, a choice has all the bodies. -/
theorem bodies_perm (h : (bodies.filter (·.2.1.isNone)).length ≤ 1) :
    (Element.bodiesOf (armsOf bodies) (otherwiseOf bodies)).Perm (bodies.map (·.2.2)) := by
  induction bodies with
  | nil => exact List.Perm.refl []
  | cons b rest ih =>
    obtain ⟨id, condition, body⟩ := b
    cases condition with
    | some c =>
      have hlength : (rest.filter (·.2.1.isNone)).length ≤ 1 := h
      exact (ih hlength).cons body
    | none =>
      have hnone : rest.filter (·.2.1.isNone) = [] := by simpa using h
      have hrest := ih (by rw [hnone]; exact Nat.zero_le 1)
      have harms : armsOf ((id, none, body) :: rest) = armsOf rest := rfl
      rw [Element.bodiesOf, otherwiseOf_eq, hnone] at hrest
      rw [Element.bodiesOf, otherwiseOf_eq, List.filter_cons_of_pos rfl, hnone, harms]
      refine List.perm_append_comm.trans (List.Perm.cons body ?_)
      simpa using hrest

/-- With one body at most that has no condition, that one is not left out. -/
theorem otherwiseOf_eq_some_iff (h : (bodies.filter (·.2.1.isNone)).length ≤ 1) {body : List Element} :
    otherwiseOf bodies = some body ↔ ∃ id, (id, none, body) ∈ bodies := by
  have inFilter : ∀ id, (id, none, body) ∈ bodies ↔ (id, none, body) ∈ bodies.filter (·.2.1.isNone) := by
    intro id
    simp
  have only : ∀ x ∈ bodies.filter (·.2.1.isNone), x.2.1 = none := by
    intro x hx
    exact Option.isNone_iff_eq_none.1 (List.mem_filter.1 hx).2
  rw [otherwiseOf_eq]
  simp only [inFilter]
  rcases hf : bodies.filter (·.2.1.isNone) with _ | ⟨⟨id, condition, body'⟩, _ | ⟨y, rest⟩⟩
  · rw [hf]
    simp
  · rw [hf] at only ⊢
    obtain rfl : condition = none := only _ (List.mem_singleton_self _)
    simp [eq_comm]
  · rw [hf] at h
    simp at h

end Setting

/-- A node stands somewhere in a sequence of elements. -/
def Emits (g : Graph) (es : List Element) (v : Fin g.size) : Prop :=
  g.idAt v ∈ (Element.nodesOfBody es).map Step.id

variable {g : Graph}

theorem emits_nil {v : Fin g.size} : ¬ Emits g [] v := by
  simp [Emits, Element.nodesOfBody]

/-- A node stands in an element or in what follows it. -/
theorem emits_cons {e : Element} {rest : List Element} {v : Fin g.size} :
    Emits g (e :: rest) v ↔ g.idAt v ∈ e.nodes.map Step.id ∨ Emits g rest v := by
  rw [Emits, Element.nodesOfBody, List.map_append, List.mem_append]
  rfl

/-- A step has the node it is on. -/
@[simp] theorem nodes_stepOn (v : Fin g.size) : (g.stepOn v).nodes = [(g.node v).toStep] := by
  unfold stepOn
  split <;> rfl

/-- A node stands in a lane of a parallel element or in what follows it; the fan-out itself is no part of it. -/
theorem emits_parallel {id : String} {lanes : List (LaneBody g.size)} {rest : List Element} {v : Fin g.size} :
    Emits g (.parallel id (LaneBody.lanes id 0 lanes) :: rest) v ↔ (∃ l ∈ lanes, Emits g l.body v) ∨ Emits g rest v := by
  rw [emits_cons, Element.nodes]
  simp only [List.mem_map, Element.mem_nodesOfLanes, Emits]
  refine or_congr_left ?_
  constructor
  · rintro ⟨node, ⟨l, hl, hm⟩, he⟩
    exact ⟨l, hl, node, hm, he⟩
  · rintro ⟨l, hl, node, hm, he⟩
    exact ⟨node, ⟨l, hl, hm⟩, he⟩

namespace Graph.Indexes

variable {catalog : NodeCatalog} {nodes : List Flow.Node} {edges : List Flow.Edge}

/-- A step emits its node. -/
theorem emits_step (h : Indexes catalog nodes edges g) {v u : Fin g.size} {rest : List Element} :
    Emits g (g.stepOn v :: rest) u ↔ u = v ∨ Emits g rest u := by
  rw [emits_cons, nodes_stepOn, List.map_singleton, List.mem_singleton]
  exact or_congr_left h.idAt_inj

/-- The bodies of a choice are those of the declared branches of its node, in order. -/
theorem bodies_of_conditional (h : Indexes catalog nodes edges g) {v : Fin g.size} {ids : List String}
    {bodies : List (ArmBody g.size)} (hk : (g.node v).kind = .conditional ids)
    (hbranches : bodies.map ArmBody.branch = g.successorsAt v)
    (hkinds : ∀ b ∈ bodies, ∃ parent, (g.node b.branch).kind = .branch parent b.condition) :
    ∃ n ∈ nodes, g.node v = .declared n (.conditional ids) ∧ (n.branches.filter (·.condition.isNone)).length ≤ 1 ∧
      List.Forall₂ (fun b branch => g.idAt b.branch = branch.id ∧ b.condition = branch.condition) bodies n.branches := by
  obtain ⟨n, hn, hv, -, hone, hsuccessors⟩ := h.successors_conditional hk
  rw [← hbranches, List.forall₂_map_left_iff] at hsuccessors
  refine ⟨n, hn, hv, hone, ?_⟩
  clear hbranches hone
  generalize n.branches = branches at hsuccessors
  induction hsuccessors with
  | nil => exact .nil
  | cons hb _ ih =>
    rename_i b branch _ _ _
    refine .cons ⟨idAt_of_branch hb, ?_⟩ (ih fun x hx => hkinds x (List.mem_cons_of_mem _ hx))
    obtain ⟨parent, hkind⟩ := hkinds b (List.mem_cons_self ..)
    rw [hb] at hkind
    injection hkind with _ hcondition
    exact hcondition.symm

/-- One body of a choice at most has no condition. -/
theorem length_unconditional (h : Indexes catalog nodes edges g) {v : Fin g.size} {ids : List String}
    {bodies : List (ArmBody g.size)} (hk : (g.node v).kind = .conditional ids)
    (hbranches : bodies.map ArmBody.branch = g.successorsAt v)
    (hkinds : ∀ b ∈ bodies, ∃ parent, (g.node b.branch).kind = .branch parent b.condition) :
    ((bodies.map (ArmBody.named g)).filter (·.2.1.isNone)).length ≤ 1 := by
  obtain ⟨n, -, -, hone, hmatch⟩ := h.bodies_of_conditional hk hbranches hkinds
  refine Nat.le_trans (Nat.le_of_eq ?_) hone
  clear hbranches hkinds hone
  generalize n.branches = branches at hmatch
  induction hmatch with
  | nil => rfl
  | cons hb _ ih =>
    simp only [List.map_cons, List.filter_cons, ArmBody.named, hb.2]
    split <;> simp [ih]

/-- Bodies of branches are those of a choice, so one of them at most has no condition. -/
theorem length_unconditional_of_kinds (h : Indexes catalog nodes edges g) {v : Fin g.size} {bodies : List (ArmBody g.size)}
    (hbranches : bodies.map ArmBody.branch = g.successorsAt v)
    (hkinds : ∀ b ∈ bodies, ∃ parent, (g.node b.branch).kind = .branch parent b.condition) :
    ((bodies.map (ArmBody.named g)).filter (·.2.1.isNone)).length ≤ 1 := by
  cases hb : bodies with
  | nil => exact Nat.zero_le 1
  | cons b rest =>
    obtain ⟨parent, hk⟩ := hkinds b (hb ▸ List.mem_cons_self ..)
    obtain ⟨u, ids, -, hku, hu⟩ := h.predecessors_branch hk
    have hv : v ∈ g.predecessorsAt b.branch :=
      h.mem_predecessorsAt_iff.2 (hbranches ▸ List.mem_map_of_mem (hb ▸ List.mem_cons_self ..))
    rw [hu, List.mem_singleton] at hv
    rw [← hb]
    exact h.length_unconditional (hv ▸ hku) hbranches hkinds

/-- A choice has all the bodies of its branches. -/
theorem mem_bodiesOf (h : Indexes catalog nodes edges g) {v : Fin g.size} {ids : List String} {bodies : List (ArmBody g.size)}
    (hk : (g.node v).kind = .conditional ids) (hbranches : bodies.map ArmBody.branch = g.successorsAt v)
    (hkinds : ∀ b ∈ bodies, ∃ parent, (g.node b.branch).kind = .branch parent b.condition) {body : List Element} :
    body ∈ Element.bodiesOf (Setting.armsOf (bodies.map (ArmBody.named g))) (Setting.otherwiseOf (bodies.map (ArmBody.named g)))
      ↔ ∃ b ∈ bodies, b.body = body := by
  rw [(Setting.bodies_perm (h.length_unconditional hk hbranches hkinds)).mem_iff, List.map_map, List.mem_map]
  rfl

/-- A choice emits its node, and what its bodies emit. -/
theorem emits_choice (h : Indexes catalog nodes edges g) {v u : Fin g.size} {ids : List String} {id : String}
    {bodies : List (ArmBody g.size)} {rest : List Element} (hk : (g.node v).kind = .conditional ids)
    (hbranches : bodies.map ArmBody.branch = g.successorsAt v)
    (hkinds : ∀ b ∈ bodies, ∃ parent, (g.node b.branch).kind = .branch parent b.condition) :
    Emits g (g.choiceOn id v bodies :: rest) u ↔ u = v ∨ (∃ b ∈ bodies, Emits g b.body u) ∨ Emits g rest u := by
  have inside : g.idAt u ∈ (Element.nodesOfArms (Setting.armsOf (bodies.map (ArmBody.named g))) ++
      Element.nodesOfOtherwise (Setting.otherwiseOf (bodies.map (ArmBody.named g)))).map Step.id ↔
      ∃ b ∈ bodies, Emits g b.body u := by
    simp only [List.mem_map, Element.mem_nodesOfBodies, h.mem_bodiesOf hk hbranches hkinds, Emits]
    constructor
    · rintro ⟨node, ⟨_, ⟨b, hb, rfl⟩, hm⟩, hid⟩
      exact ⟨b, hb, node, hm, hid⟩
    · rintro ⟨b, hb, node, hm, hid⟩
      exact ⟨node, ⟨_, ⟨b, hb, rfl⟩, hm⟩, hid⟩
  rw [emits_cons, choiceOn, Element.nodes, List.map_cons, List.mem_cons, inside]
  change ((g.idAt u = g.idAt v ∨ _) ∨ _) ↔ _
  rw [h.idAt_inj, or_assoc]

end Graph.Indexes

end FlowPlan
