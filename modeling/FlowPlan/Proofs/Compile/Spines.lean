import FlowPlan.Proofs.Compile.Emission

/-!
# Spines

The spine of an element in a plan are the nodes that stand in front of it: those of the elements before it in its sequence, and,
around each body that it lies in, the conditional node of the choice and the nodes of the elements before the choice or parallel
element. An unfolding enters no node that is on the path (`Unfolds.fresh_of_mem_spines`), and the path at an element is its
spine. So no node stands on a spine twice, whatever loops the graph has (`nodup_of_mem_spines`).
-/

namespace FlowPlan

open FlowPlan.Graph

namespace Element

/-- The id of the node of an element; a parallel element has none. -/
def ownIds : Element → List String
  | .sequential node => [node.id]
  | .leaf node => [node.id]
  | .choice _ node _ _ => [node.id]
  | .parallel .. => []

mutual

/-- The spines of an element and of all elements in its bodies, each from the element on. -/
def spines : Element → List (List String)
  | .sequential node => [[node.id]]
  | .leaf node => [[node.id]]
  | .choice _ node arms otherwise => [node.id] :: (spinesOfArms arms ++ spinesOfOtherwise otherwise).map (node.id :: ·)
  | .parallel _ lanes => [] :: spinesOfLanes lanes

/-- The spines of all elements of a sequence and of its bodies, from its first element on and with their own nodes. -/
def spinesOfBody : List Element → List (List String)
  | [] => []
  | element :: rest => spines element ++ (spinesOfBody rest).map (element.ownIds ++ ·)

def spinesOfArms : List (Arm Element) → List (List String)
  | [] => []
  | ⟨_, _, body⟩ :: rest => spinesOfBody body ++ spinesOfArms rest

def spinesOfLanes : List (Lane Element) → List (List String)
  | [] => []
  | ⟨_, body⟩ :: rest => spinesOfBody body ++ spinesOfLanes rest

def spinesOfOtherwise : Option (List Element) → List (List String)
  | none => []
  | some body => spinesOfBody body

end

/-- The spines inside a choice are those of its bodies, behind its node. -/
theorem spinesOfBodies_eq (arms : List (Arm Element)) (otherwise : Option (List Element)) :
    spinesOfArms arms ++ spinesOfOtherwise otherwise = (bodiesOf arms otherwise).flatMap spinesOfBody :=
  eq_flatMap_bodiesOf rfl (fun _ _ => rfl) rfl (fun _ => rfl) arms otherwise

/-- Spines inside of lanes do not depend on the ids of the lanes. -/
theorem spinesOfLanes_eq {n : Nat} {id : String} {index : Nat} {lanes : List (LaneBody n)} :
    spinesOfLanes (LaneBody.lanes id index lanes) = lanes.flatMap fun l => spinesOfBody l.body :=
  eq_flatMap_lanes rfl fun _ _ => rfl

/-- The spine of an element of a sequence is that of its first element, lies inside that one or goes on behind it. -/
theorem mem_spinesOfBody_cons {element : Element} {rest : List Element} {ids : List String} :
    ids ∈ spinesOfBody (element :: rest) ↔ ids ∈ element.spines ∨ ∃ others ∈ spinesOfBody rest, element.ownIds ++ others = ids := by
  rw [spinesOfBody, List.mem_append, List.mem_map]

end Element

/-- The spines of all elements of a plan. -/
def Route.spines (r : Route) : List (List String) :=
  Element.spinesOfBody r.steps

variable {g : Graph}

/-- No node stands on a spine twice, and none of the path stands on it. -/
structure Fresh (g : Graph) (path : List (Fin g.size)) (ids : List String) : Prop where
  nodup : ids.Nodup
  off : ∀ v ∈ path, g.idAt v ∉ ids

theorem fresh_nil (path : List (Fin g.size)) : Fresh g path [] :=
  ⟨List.nodup_nil, fun _ _ => List.not_mem_nil⟩

/-- A step has one spine, its node. -/
theorem mem_spines_stepOn {v : Fin g.size} {ids : List String} : ids ∈ (g.stepOn v).spines ↔ ids = [g.idAt v] := by
  unfold stepOn
  split <;> exact List.mem_singleton

/-- A step has one id, that of its node. -/
theorem ownIds_stepOn (v : Fin g.size) : (g.stepOn v).ownIds = [g.idAt v] := by
  unfold stepOn
  split <;> rfl

namespace Graph.Indexes

variable {catalog : NodeCatalog} {nodes : List Flow.Node} {edges : List Flow.Edge}

/-- A spine of a choice is its node, with or without a spine of a body behind it. -/
theorem mem_spines_choiceOn (h : Indexes catalog nodes edges g) {v : Fin g.size} {ids : List String} {id : String}
    {bodies : List (ArmBody g.size)} (hk : (g.node v).kind = .conditional ids)
    (hbranches : bodies.map ArmBody.branch = g.successorsAt v)
    (hkinds : ∀ b ∈ bodies, ∃ parent, (g.node b.branch).kind = .branch parent b.condition) {spine : List String} :
    spine ∈ (g.choiceOn id v bodies).spines ↔
      spine = [g.idAt v] ∨ ∃ b ∈ bodies, ∃ others ∈ Element.spinesOfBody b.body, g.idAt v :: others = spine := by
  rw [choiceOn, Element.spines, Element.spinesOfBodies_eq, List.mem_cons, List.mem_map]
  refine or_congr_right ?_
  simp only [List.mem_flatMap, h.mem_bodiesOf hk hbranches hkinds]
  constructor
  · rintro ⟨others, ⟨_, ⟨b, hb, rfl⟩, hothers⟩, he⟩
    exact ⟨b, hb, others, hothers, he⟩
  · rintro ⟨b, hb, others, hothers, he⟩
    exact ⟨others, ⟨_, ⟨b, hb, rfl⟩, hothers⟩, he⟩

/-- A node that is not on the path may stand in front of what is unfolded behind it. -/
theorem fresh_cons (h : Indexes catalog nodes edges g) {path : List (Fin g.size)} {v : Fin g.size} {ids : List String}
    (hv : v ∉ path) (hf : Fresh g (v :: path) ids) : Fresh g path (g.idAt v :: ids) where
  nodup := List.nodup_cons.2 ⟨hf.off v (List.mem_cons_self ..), hf.nodup⟩
  off := by
    intro w hw hm
    rcases List.mem_cons.1 hm with he | hm
    · exact hv (h.ids_injective he ▸ hw)
    · exact hf.off w (List.mem_cons_of_mem _ hw) hm

end Graph.Indexes

/-- Whatever is unfolded at a place enters nodes that are not on the path, and none of them twice on a spine. -/
theorem Unfolds.fresh_of_mem_spines {catalog : NodeCatalog} {nodes : List Flow.Node} {edges : List Flow.Edge}
    (hg : Indexes catalog nodes edges g) {place : Place g.size} {first stop : Option (Fin g.size)} {path : List (Fin g.size)}
    {es : List Element} (h : Unfolds g place first stop path es) {ids : List String} (hs : ids ∈ Element.spinesOfBody es) :
    Fresh g path ids := by
  induction h generalizing ids with
  | halted => cases hs
  | looped _ => cases hs
  | @step v _ _ path _ _ hpath _ _ ih =>
    rcases Element.mem_spinesOfBody_cons.1 hs with hs | ⟨others, hothers, rfl⟩
    · rw [mem_spines_stepOn.1 hs]
      exact hg.fresh_cons hpath (fresh_nil _)
    · rw [ownIds_stepOn]
      exact hg.fresh_cons hpath (ih hothers)
  | @choice v _ _ path _ _ _ _ _ hpath hk _ hbranches hkinds _ _ ihbodies ihrest =>
    rcases Element.mem_spinesOfBody_cons.1 hs with hs | ⟨others, hothers, rfl⟩
    · rcases (hg.mem_spines_choiceOn hk hbranches hkinds).1 hs with rfl | ⟨b, hb, others, hothers, rfl⟩
      · exact hg.fresh_cons hpath (fresh_nil _)
      · exact hg.fresh_cons hpath (ihbodies b hb hothers)
    · exact hg.fresh_cons hpath (ihrest hothers)
  | ends _ => cases hs
  | follows _ _ ih => exact ih hs
  | fork _ _ _ _ ihlanes ihrest =>
    rcases Element.mem_spinesOfBody_cons.1 hs with hs | ⟨others, hothers, rfl⟩
    · rw [Element.spines, Element.spinesOfLanes_eq, List.mem_cons, List.mem_flatMap] at hs
      rcases hs with rfl | ⟨l, hl, hs⟩
      · exact fresh_nil _
      · exact ihlanes l hl hs
    · exact ihrest hothers
  | apart _ => cases hs
  | left _ _ _ => cases hs
  | resumes _ _ _ ih => exact ih hs

/-- In a plan of a graph, with loops or without, compiled without interceptors, no node stands twice on the spine of an
element. -/
theorem nodup_of_mem_spines {catalog : NodeCatalog} {nodes : List Flow.Node} {edges : List Flow.Edge} {g : Graph}
    (hg : Graph.build catalog nodes edges = .ok g) {c : Compiler} (hc : c.chain = []) {flowId : String} {route : Route}
    (hr : c.compileGraph flowId g = .ok route) {ids : List String} (hs : ids ∈ route.spines) : ids.Nodup := by
  obtain ⟨entry, -, hunfolds⟩ := Compiler.unfolds_of_compileGraph hc hr
  exact (hunfolds.fresh_of_mem_spines (indexes_of_build hg) hs).nodup

/-- Two loops back to B: one from a branch of the choice at C, one from S, where the fan-out at P meets again. The choice and
the fan-out are both paired with B. -/
def Flow.retry : Flow where
  id := "retry"
  nodes := [
    { id := "A", component := "script" },
    { id := "B", component := "script" },
    { id := "C", component := "choice", branches := [⟨"again", some "attempts < 3"⟩, ⟨"done", none⟩] },
    { id := "P", component := "script" },
    { id := "Q", component := "script" },
    { id := "R", component := "script" },
    { id := "S", component := "script" }]
  edges := [("A", "B"), ("B", "C"), ("again", "B"), ("done", "P"), ("P", "Q"), ("P", "R"), ("Q", "S"), ("R", "S"), ("S", "B")].map
    fun (source, target) => { source := source, target := target }

/-- In the plan of `Flow.retry`, the longest spine goes once around the outer loop. -/
theorem nodup_of_mem_spines_retry : ∃ g route, Graph.build .standard Flow.retry.nodes Flow.retry.edges = .ok g ∧
    Compiler.compileGraph {} "retry" g = .ok route ∧ ["A", "B", "C", "P", "Q", "S"] ∈ route.spines ∧
      ["A", "B", "C", "P", "Q", "S"].Nodup := by
  obtain ⟨g, hg, route, hr, hs⟩ : ∃ g, Graph.build .standard Flow.retry.nodes Flow.retry.edges = .ok g ∧
      ∃ route, Compiler.compileGraph {} "retry" g = .ok route ∧ ["A", "B", "C", "P", "Q", "S"] ∈ route.spines := by
    decide +kernel
  exact ⟨g, route, hg, hr, hs, nodup_of_mem_spines hg rfl hr hs⟩

end FlowPlan
