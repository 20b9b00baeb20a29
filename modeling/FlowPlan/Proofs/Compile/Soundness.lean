import FlowPlan.Proofs.Compile.Coverage

/-!
# Plans as unfoldings

`Sound` says of a plan alone, whatever made it, that it unfolds a graph: every join between two elements of a sequence, and
between an element and its bodies, is a link of the graph or the pairing of a branch start with its merge node, and the
branches of a choice are those of its node. The plans of a compilation without interceptors are sound (`sound_of_compileGraph`).
-/

namespace FlowPlan

open FlowPlan.Graph

/-- What a sequence of elements comes after, by ids. -/
inductive Before
  /-- nothing but a link to this node: the plan begins, or a lane does -/
  | into (id : String)
  /-- a step on this node, or this branch: its body begins -/
  | after (id : String)
  /-- the choice or parallel element that starts at this node or branch -/
  | behind (start : String)

/-- A node may come next. -/
def Before.Joins (g : Graph) : Before → String → Prop
  | .into w, id => id = w
  | .after v, id => g.successors v = [id]
  | .behind start, id => g.branchEnd? start = some id

/-- A sequence of elements, with all its bodies, unfolds the graph of declared nodes. -/
inductive Sound (g : Graph) (nodes : List Flow.Node) : Before → List Element → Prop
  | ends {before} : Sound g nodes before []
  | sequential {before node rest} : before.Joins g node.id → g.node? node.id = some node → node.kind = .plain →
      g.successors node.id ≠ [] → Sound g nodes (.after node.id) rest →
      Sound g nodes before (.sequential node.toStep :: rest)
  /-- nothing follows a leaf -/
  | leaf {before node} : before.Joins g node.id → g.node? node.id = some node → node.kind = .plain →
      g.successors node.id = [] → Sound g nodes before [.leaf node.toStep]
  /-- the arms are the branches with a condition, in the order of the declaration -/
  | choice {before node n id arms otherwise rest} : before.Joins g node.id → g.node? node.id = some node →
      node.isConditional = true → n ∈ nodes → n.id = node.id →
      arms.map (fun a => (a.id, a.condition)) = n.branches.filterMap (fun b => b.condition.map (b.id, ·)) →
      (otherwise.isSome = true ↔ ∃ b ∈ n.branches, b.condition = none) →
      (∀ a ∈ arms, Sound g nodes (.after a.id) a.body) →
      (∀ body b, otherwise = some body → b ∈ n.branches → b.condition = none → Sound g nodes (.after b.id) body) →
      Sound g nodes (.behind node.id) rest → Sound g nodes before (.choice id node.toStep arms otherwise :: rest)
  /-- the lanes are those of the successors, in order -/
  | parallel {start id lanes rest} : 1 < (g.successors start).length → lanes.length = (g.successors start).length →
      (∀ p ∈ lanes.zip (g.successors start), Sound g nodes (.into p.2) p.1.body) →
      Sound g nodes (.behind start) rest → Sound g nodes (.after start) (.parallel id lanes :: rest)

/-- What a sequence at a place comes after. -/
def Place.toBefore (g : Graph) : Place g.size → Before
  | .into v => .into (g.idAt v)
  | .after v => .after (g.idAt v)
  | .behind v => .behind (g.idAt v)

variable {g : Graph} {nodes : List Flow.Node}

/-- A sequence that begins at a node fits wherever the node may come next. -/
theorem Sound.of_into {id : String} {es : List Element} (h : Sound g nodes (.into id) es) {before : Before}
    (hid : before.Joins g id) : Sound g nodes before es := by
  cases h with
  | ends => exact .ends
  | sequential hj hnode hk hs hrest => exact .sequential (hj ▸ hid) hnode hk hs hrest
  | leaf hj hnode hk hs => exact .leaf (hj ▸ hid) hnode hk hs
  | choice hj hnode hc hn hnid harms ho hbodies hbody hrest =>
    exact .choice (hj ▸ hid) hnode hc hn hnid harms ho hbodies hbody hrest

namespace SoundnessAux

/-- The arms among bodies that match declared branches are the declared branches with a condition. -/
theorem map_armsOf {bodies : List (ArmBody g.size)} {branches : List Flow.Branch}
    (h : List.Forall₂ (fun b branch => g.idAt b.branch = branch.id ∧ b.condition = branch.condition) bodies branches) :
    (Setting.armsOf (bodies.map (ArmBody.named g))).map (fun a => (a.id, a.condition)) =
      branches.filterMap (fun b => b.condition.map (b.id, ·)) := by
  induction h with
  | nil => rfl
  | @cons b branch bodies branches hb _ ih =>
    obtain ⟨hid, hcondition⟩ := hb
    unfold Setting.armsOf at ih ⊢
    rw [List.map_cons, List.filterMap_cons, List.filterMap_cons, ← hcondition, ← hid]
    cases hc : b.condition with
    | none => simpa [ArmBody.named, hc] using ih
    | some condition => simpa [ArmBody.named, hc] using ih

/-- A named body is a body under the id of its branch. -/
theorem mem_map_named {bodies : List (ArmBody g.size)} {id : String} {condition : Option String} {body : List Element} :
    (id, condition, body) ∈ bodies.map (ArmBody.named g) ↔
      ∃ b ∈ bodies, g.idAt b.branch = id ∧ b.condition = condition ∧ b.body = body := by
  simp only [List.mem_map, ArmBody.named, Prod.mk.injEq]

/-- A conditional node declares one branch without a condition at most. -/
theorem eq_of_unconditional {branches : List Flow.Branch} (h : (branches.filter (·.condition.isNone)).length ≤ 1)
    {b b' : Flow.Branch} (hb : b ∈ branches) (hb' : b' ∈ branches) (hc : b.condition = none) (hc' : b'.condition = none) :
    b = b' := by
  have hm : b ∈ branches.filter (·.condition.isNone) := List.mem_filter.2 ⟨hb, Option.isNone_iff_eq_none.2 hc⟩
  have hm' : b' ∈ branches.filter (·.condition.isNone) := List.mem_filter.2 ⟨hb', Option.isNone_iff_eq_none.2 hc'⟩
  rcases hf : branches.filter (·.condition.isNone) with _ | ⟨x, _ | ⟨y, rest⟩⟩
  · simp [hf] at hm
  · rw [hf, List.mem_singleton] at hm hm'
    rw [hm, hm']
  · rw [hf] at h
    simp at h

/-- There is one lane for each body. -/
theorem length_lanes {n : Nat} (id : String) (index : Nat) (lanes : List (LaneBody n)) :
    (LaneBody.lanes id index lanes).length = lanes.length := by
  induction lanes generalizing index with
  | nil => rfl
  | cons l rest ih => rw [LaneBody.lanes, List.length_cons, List.length_cons, ih]

/-- Each lane stands beside its successor. -/
theorem mem_zip_lanes {id : String} {index : Nat} {lanes : List (LaneBody g.size)} {p : Lane Element × String}
    (h : p ∈ (LaneBody.lanes id index lanes).zip (lanes.map fun l => g.idAt l.successor)) :
    ∃ l ∈ lanes, p.1.body = l.body ∧ p.2 = g.idAt l.successor := by
  induction lanes generalizing index with
  | nil => simp [LaneBody.lanes] at h
  | cons l rest ih =>
    rw [LaneBody.lanes, List.map_cons, List.zip_cons_cons] at h
    rcases List.mem_cons.1 h with rfl | h
    · exact ⟨l, List.mem_cons_self .., rfl, rfl⟩
    · obtain ⟨l', hl', hp⟩ := ih h
      exact ⟨l', List.mem_cons_of_mem _ hl', hp⟩

end SoundnessAux

open SoundnessAux

variable {catalog : NodeCatalog} {edges : List Flow.Edge}

namespace Sound

variable {v w : Fin g.size} {first stop : Option (Fin g.size)} {path : List (Fin g.size)} {rest : List Element}

/-- A step, which is a leaf exactly when nothing follows it. -/
theorem step (hg : Indexes catalog nodes edges g) (hk : (g.node v).kind = .plain)
    (hrest : Unfolds g (.after v) first stop path rest) (h : Sound g nodes (.after (g.idAt v)) rest) :
    Sound g nodes (.into (g.idAt v)) (g.stepOn v :: rest) := by
  by_cases hs : g.successorsAt v = []
  · obtain rfl : rest = [] := by
      cases hrest with
      | ends _ => rfl
      | follows hs' _ => simp [hs] at hs'
      | fork hmany _ _ _ => simp [hs] at hmany
    rw [stepOn, if_pos (List.isEmpty_iff.2 hs)]
    exact .leaf rfl (hg.node?_idAt v) hk (by rw [← idAt]; simp [hs])
  · rw [stepOn, if_neg (mt List.isEmpty_iff.1 hs)]
    refine .sequential rfl (hg.node?_idAt v) hk ?_ h
    rw [← idAt]
    simpa using hs

/-- A choice with a body for each branch of its node. -/
theorem choiceOn (hg : Indexes catalog nodes edges g) {ids : List String} {id : String} {bodies : List (ArmBody g.size)}
    (hk : (g.node v).kind = .conditional ids) (hbranches : bodies.map ArmBody.branch = g.successorsAt v)
    (hkinds : ∀ b ∈ bodies, ∃ parent, (g.node b.branch).kind = .branch parent b.condition)
    (hbodies : ∀ b ∈ bodies, Sound g nodes (.after (g.idAt b.branch)) b.body) (hrest : Sound g nodes (.behind (g.idAt v)) rest) :
    Sound g nodes (.into (g.idAt v)) (g.choiceOn id v bodies :: rest) := by
  obtain ⟨n, hn, hv, hone, hmatch⟩ := hg.bodies_of_conditional hk hbranches hkinds
  have unconditional := hg.length_unconditional hk hbranches hkinds
  refine .choice rfl (hg.node?_idAt v) (isConditional_of_kind hk) hn (idAt_of_declared hv).symm (map_armsOf hmatch) ?some ?arms
    ?otherwise hrest
  case some =>
    constructor
    · intro hsome
      obtain ⟨body, hbody⟩ := Option.isSome_iff_exists.1 hsome
      obtain ⟨id, hid⟩ := (Setting.otherwiseOf_eq_some_iff unconditional).1 hbody
      obtain ⟨b, hb, -, hc, -⟩ := mem_map_named.1 hid
      obtain ⟨branch, hbranch, -, hcondition⟩ := IndexingAux.exists_of_forall₂_left hmatch b hb
      exact ⟨branch, hbranch, hcondition ▸ hc⟩
    · rintro ⟨branch, hbranch, hc⟩
      obtain ⟨b, hb, -, hcondition⟩ := IndexingAux.exists_of_forall₂_left hmatch.flip branch hbranch
      refine Option.isSome_iff_exists.2 ⟨b.body, (Setting.otherwiseOf_eq_some_iff unconditional).2 ⟨g.idAt b.branch, ?_⟩⟩
      exact mem_map_named.2 ⟨b, hb, rfl, hcondition.trans hc, rfl⟩
  case arms =>
    intro a ha
    obtain ⟨b, hb, hbid, -, hbody⟩ := mem_map_named.1 (Setting.mem_armsOf.1 ha)
    rw [← hbid, ← hbody]
    exact hbodies b hb
  case otherwise =>
    intro body branch hbody hbranch hc
    obtain ⟨id, hid⟩ := (Setting.otherwiseOf_eq_some_iff unconditional).1 hbody
    obtain ⟨b, hb, -, hcb, rfl⟩ := mem_map_named.1 hid
    obtain ⟨branch', hbranch', hbid, hcondition⟩ := IndexingAux.exists_of_forall₂_left hmatch b hb
    obtain rfl : branch' = branch := eq_of_unconditional hone hbranch' hbranch (hcondition ▸ hcb) hc
    rw [← hbid]
    exact hbodies b hb

/-- A parallel element with a lane for each successor. -/
theorem fork (hg : Indexes catalog nodes edges g) {id : String} {lanes : List (LaneBody g.size)}
    (hmany : 1 < (g.successorsAt v).length) (hsuccessors : lanes.map LaneBody.successor = g.successorsAt v)
    (hlanes : ∀ l ∈ lanes, Sound g nodes (.into (g.idAt l.successor)) l.body) (hrest : Sound g nodes (.behind (g.idAt v)) rest) :
    Sound g nodes (.after (g.idAt v)) (.parallel id (LaneBody.lanes id 0 lanes) :: rest) := by
  have hids : g.successors (g.idAt v) = lanes.map fun l => g.idAt l.successor := by
    simp [← hsuccessors]
  refine .parallel ?_ ?_ ?_ hrest
  · simpa using hmany
  · rw [hids, length_lanes, List.length_map]
  · intro p hp
    rw [hids] at hp
    obtain ⟨l, hl, hbody, hsuccessor⟩ := mem_zip_lanes hp
    rw [hbody, hsuccessor]
    exact hlanes l hl

end Sound

/-- What is unfolded at a place is sound. -/
theorem Unfolds.sound (hg : Indexes catalog nodes edges g) {place : Place g.size} {first stop : Option (Fin g.size)}
    {path : List (Fin g.size)} {es : List Element} (h : Unfolds g place first stop path es) :
    Sound g nodes (place.toBefore g) es := by
  induction h with
  | halted => exact .ends
  | looped _ => exact .ends
  | step _ _ hk hrest ih => exact .step hg hk hrest ih
  | choice _ _ hk _ hbranches hkinds _ _ ihbodies ihrest => exact .choiceOn hg hk hbranches hkinds ihbodies ihrest
  | ends _ => exact .ends
  | follows hs _ ih =>
    refine ih.of_into ?_
    simp [Place.toBefore, Before.Joins, hs]
  | fork hmany hsuccessors _ _ ihlanes ihrest => exact .fork hg hmany hsuccessors ihlanes ihrest
  | apart _ => exact .ends
  | left _ _ _ => exact .ends
  | resumes hm _ _ ih => exact ih.of_into (hg.branchEnd?_idAt_iff.2 hm)

/-- A plan of a graph, with loops or without, compiled without interceptors, begins with the element of the entry and is sound:
1. A step is followed by the element of its only successor, or, when it has several, by a parallel element with a lane for each
   of them in order; a lane is empty or begins with the element of its successor.
2. A choice has the branches of its node, with their ids and conditions in the order of the declaration, and a body without a
   condition exactly when a branch has none; a body goes on as if the branch were a step before it.
3. What follows a choice or parallel element is the element of the merge node with which its start is paired. -/
theorem sound_of_compileGraph {catalog : NodeCatalog} {nodes : List Flow.Node} {edges : List Flow.Edge} {g : Graph}
    (hg : Graph.build catalog nodes edges = .ok g) {c : Compiler} (hc : c.chain = []) {flowId : String} {route : Route}
    (hr : c.compileGraph flowId g = .ok route) :
    ∃ entry, g.entry.map g.idAt = .ok entry ∧ route.steps ≠ [] ∧ Sound g nodes (.into entry) route.steps := by
  have h := indexes_of_build hg
  obtain ⟨entry, hentry, hunfolds⟩ := Compiler.unfolds_of_compileGraph hc hr
  refine ⟨g.idAt entry, by rw [hentry]; rfl, ?_, hunfolds.sound h⟩
  intro hnil
  rw [hnil] at hunfolds
  exact emits_nil (hunfolds.into_met h).emits

/-- A choice at C with another one at E under its first branch; all branches meet at D. -/
def Flow.approval : Flow where
  id := "approval"
  nodes := [
    { id := "A", component := "script" },
    { id := "C", component := "choice", branches := [⟨"yes", some "amount < 100"⟩, ⟨"no", none⟩] },
    { id := "E", component := "choice", branches := [⟨"new", some "first order"⟩, ⟨"known", none⟩] },
    { id := "B", component := "script" },
    { id := "D", component := "script" }]
  edges := [
    { source := "A", target := "C" },
    { source := "C", branch := some "yes", target := "E" },
    { source := "no", target := "D" },
    { source := "E", branch := some "new", target := "B" },
    { source := "known", target := "D" },
    { source := "B", target := "D" }]

/-- The plan of `Flow.approval` is sound. -/
theorem sound_of_compileGraph_approval : ∃ g route,
    Graph.build .standard Flow.approval.nodes Flow.approval.edges = .ok g ∧
      Compiler.compileGraph {} "approval" g = .ok route ∧
        ∃ entry, g.entry.map g.idAt = .ok entry ∧ route.steps ≠ [] ∧ Sound g Flow.approval.nodes (.into entry) route.steps := by
  obtain ⟨g, hg, route, hr⟩ : ∃ g, Graph.build .standard Flow.approval.nodes Flow.approval.edges = .ok g ∧
      ∃ route, Compiler.compileGraph {} "approval" g = .ok route := by
    decide +kernel
  exact ⟨g, route, hg, hr, sound_of_compileGraph hg rfl hr⟩

end FlowPlan
