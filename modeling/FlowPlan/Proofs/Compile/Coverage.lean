import FlowPlan.Proofs.Compile.Emission
import FlowPlan.Proofs.Graph.Merging

/-!
# What a plan covers

A sequence of a plan ends at a link for one of four reasons: the target is the node to stop before, it is on the path already,
a lane leads straight to the merge node, or the merge node is left to another element. `Unfolds.covered` follows each of them to
the element that has the target. So with a node a plan has all that follows it, except for merge nodes that several branch
starts share (`successor_covered`).
-/

namespace FlowPlan

open FlowPlan.Graph

/-! ## The first choice or parallel element -/

/-- The start of the first choice or parallel element of a sequence; `before` is the node that stands right before the
sequence. -/
def Element.firstStart (before : Option String) : List Element → Option String
  | [] => none
  | .sequential node :: rest => firstStart (some node.id) rest
  | .leaf node :: rest => firstStart (some node.id) rest
  | .choice _ node _ _ :: _ => some node.id
  | .parallel .. :: _ => before

/-- The start of the first choice or parallel element of a plan: the first branch structure that is opened. -/
def Route.firstStart (r : Route) : Option String :=
  Element.firstStart none r.steps

/-- The node right before a place. -/
def Place.before (g : Graph) : Place g.size → Option String
  | .after v => some (g.idAt v)
  | _ => none

variable {g : Graph}

/-- The step before an element is the start that a search for the first one remembers. -/
@[simp] theorem firstStart_step (before : Option String) (v : Fin g.size) (rest : List Element) :
    Element.firstStart before (g.stepOn v :: rest) = Element.firstStart (some (g.idAt v)) rest := by
  unfold Graph.stepOn
  split <;> rfl

/-- What a link leads to does not begin with a parallel element. -/
theorem Unfolds.firstStart_into {v : Fin g.size} {first stop : Option (Fin g.size)} {path : List (Fin g.size)}
    {es : List Element} (h : Unfolds g (.into v) first stop path es) (before : Option String) :
    Element.firstStart before es = Element.firstStart none es := by
  cases h with
  | halted => rfl
  | looped _ => rfl
  | step _ _ _ _ => rw [firstStart_step, firstStart_step]
  | choice _ _ _ _ _ _ _ _ => rfl

/-- The outermost branch start at a place: the one that is open, or else the first one that is opened there. -/
def Outermost (g : Graph) (place : Place g.size) (first : Option (Fin g.size)) (es : List Element) (f : Fin g.size) : Prop :=
  (first.map g.idAt).or (Element.firstStart (place.before g) es) = some (g.idAt f)

namespace Outermost

variable {first : Option (Fin g.size)} {v f : Fin g.size} {es : List Element}

/-- A step in front of a sequence opens nothing. -/
theorem step (h : Outermost g (.after v) first es f) : Outermost g (.into v) first (g.stepOn v :: es) f := by
  unfold Outermost
  rw [firstStart_step]
  exact h

/-- Around the bodies of an element and what continues it, the outermost branch start is the same as around the element. -/
theorem opened {place place' : Place g.size} {es' : List Element}
    (hv : Element.firstStart (place.before g) es = some (g.idAt v)) (h : Outermost g place' (first.or (some v)) es' f) :
    Outermost g place first es f := by
  unfold Outermost
  rw [hv]
  cases first <;> exact h

/-- What follows a node by a single link opens what the sequence from the next node on does. -/
theorem follows {w : Fin g.size} {stop : Option (Fin g.size)} {path : List (Fin g.size)}
    (hu : Unfolds g (.into w) first stop path es) (h : Outermost g (.into w) first es f) :
    Outermost g (.after v) first es f := by
  unfold Outermost
  rw [hu.firstStart_into]
  exact h

end Outermost

/-! ## Targets of links -/

/-- A node of the flow follows another one: a link leads to it, for a conditional node from one of its branches. -/
def Graph.Follows (g : Graph) (u w : Fin g.size) : Prop :=
  ((g.node u).isConditional = false ∧ w ∈ g.successorsAt u) ∨
    ((g.node u).isConditional = true ∧ ∃ b ∈ g.successorsAt u, w ∈ g.successorsAt b)

/-- A node stands in a sequence, or it is one of those that end it. -/
def Met (g : Graph) (stop : Option (Fin g.size)) (path : List (Fin g.size)) (es : List Element) (w : Fin g.size) : Prop :=
  Emits g es w ∨ w ∈ path ∨ stop = some w

/-- Nothing but its elements ends a whole plan. -/
theorem Met.emits {es : List Element} {w : Fin g.size} (h : Met g none [] es w) : Emits g es w := by
  rcases h with h | h | h
  · exact h
  · cases h
  · cases h

/-- A node is met, or several branch starts share it and one is open. -/
def Covered (g : Graph) (place : Place g.size) (first stop : Option (Fin g.size)) (path : List (Fin g.size))
    (es : List Element) (w : Fin g.size) : Prop :=
  Met g stop path es w ∨ g.Shared w ∧ (first ≠ none ∨ Element.firstStart (place.before g) es ≠ none)

variable {catalog : NodeCatalog} {nodes : List Flow.Node} {edges : List Flow.Edge}

section Elements

variable {v w : Fin g.size} {first stop : Option (Fin g.size)} {path : List (Fin g.size)} {rest : List Element}
  {ids : List String} {id : String} {bodies : List (ArmBody g.size)} {lanes : List (LaneBody g.size)}

namespace Met

/-- What is met behind a step is met at it. -/
theorem step (hg : Indexes catalog nodes edges g) (h : Met g stop (v :: path) rest w) : Met g stop path (g.stepOn v :: rest) w := by
  rcases h with h | h | h
  · exact Or.inl (hg.emits_step.2 (Or.inr h))
  · rcases List.mem_cons.1 h with rfl | h
    · exact Or.inl (hg.emits_step.2 (Or.inl rfl))
    · exact Or.inr (Or.inl h)
  · exact Or.inr (Or.inr h)

/-- What is met behind a choice is met at it. -/
theorem behindChoice (hg : Indexes catalog nodes edges g) (hk : (g.node v).kind = .conditional ids)
    (hbranches : bodies.map ArmBody.branch = g.successorsAt v)
    (hkinds : ∀ b ∈ bodies, ∃ parent, (g.node b.branch).kind = .branch parent b.condition) (h : Met g stop (v :: path) rest w) :
    Met g stop path (g.choiceOn id v bodies :: rest) w := by
  rcases h with h | h | h
  · exact Or.inl ((hg.emits_choice hk hbranches hkinds).2 (Or.inr (Or.inr h)))
  · rcases List.mem_cons.1 h with rfl | h
    · exact Or.inl ((hg.emits_choice hk hbranches hkinds).2 (Or.inl rfl))
    · exact Or.inr (Or.inl h)
  · exact Or.inr (Or.inr h)

/-- What is met behind a parallel element is met at it. -/
theorem behindFork (h : Met g stop path rest w) : Met g stop path (.parallel id (LaneBody.lanes id 0 lanes) :: rest) w :=
  h.imp_left fun h => emits_parallel.2 (Or.inr h)

end Met

namespace Unfolds

/-- The target of a link is met. -/
theorem into_met (hg : Indexes catalog nodes edges g) {v : Fin g.size} {first stop : Option (Fin g.size)}
    {path : List (Fin g.size)} {es : List Element} (h : Unfolds g (.into v) first stop path es) : Met g stop path es v := by
  cases h with
  | halted => exact Or.inr (Or.inr rfl)
  | looped hm => exact Or.inr (Or.inl hm)
  | step _ _ _ _ => exact Or.inl (hg.emits_step.2 (Or.inl rfl))
  | choice _ _ hk _ hbranches hkinds _ _ => exact Or.inl ((hg.emits_choice hk hbranches hkinds).2 (Or.inl rfl))

/-- The merge node behind a choice or parallel element is met, unless it is left to the outermost one. -/
theorem behind_met (hg : Indexes catalog nodes edges g) {v merge : Fin g.size} {first stop : Option (Fin g.size)}
    {path : List (Fin g.size)} {es : List Element} (h : Unfolds g (.behind v) first stop path es)
    (hm : g.pairing.mergeOf.get v = some merge) : Met g stop path es merge ∨ g.Shared merge ∧ first ≠ some v := by
  cases h with
  | apart hnone =>
    rw [hm] at hnone
    cases hnone
  | left hm' hshared hfirst =>
    rw [hm] at hm'
    cases hm'
    exact Or.inr ⟨hshared, hfirst⟩
  | resumes hm' _ h =>
    rw [hm] at hm'
    cases hm'
    exact Or.inl (h.into_met hg)

end Unfolds

namespace Covered

/-- What is covered behind a step is covered at it. -/
theorem step (hg : Indexes catalog nodes edges g) (h : Covered g (.after v) first stop (v :: path) rest w) :
    Covered g (.into v) first stop path (g.stepOn v :: rest) w := by
  refine h.imp (Met.step hg) (And.imp_right (Or.imp_right fun hopen => ?_))
  rw [firstStart_step]
  exact hopen

/-- What is covered at the target of the only link is covered in front of the link. -/
theorem follows {es : List Element} (hu : Unfolds g (.into w) first stop path es) {x : Fin g.size}
    (h : Covered g (.into w) first stop path es x) : Covered g (.after v) first stop path es x := by
  refine h.imp_right (And.imp_right (Or.imp_right fun hopen => ?_))
  rw [hu.firstStart_into (Place.before g (.after v))]
  exact hopen

/-- What is met behind a choice, or shared, is covered at the choice, which opens a branch start. -/
theorem behindChoice (hg : Indexes catalog nodes edges g) (hk : (g.node v).kind = .conditional ids)
    (hbranches : bodies.map ArmBody.branch = g.successorsAt v)
    (hkinds : ∀ b ∈ bodies, ∃ parent, (g.node b.branch).kind = .branch parent b.condition)
    (h : Met g stop (v :: path) rest w ∨ g.Shared w) : Covered g (.into v) first stop path (g.choiceOn id v bodies :: rest) w :=
  h.imp (Met.behindChoice hg hk hbranches hkinds) fun hw => ⟨hw, Or.inr (by simp [Graph.choiceOn, Element.firstStart])⟩

/-- What is covered in a body of a choice is covered at the choice. The node to stop before in the body is met behind the choice,
or left to the outermost element. -/
theorem arm (hg : Indexes catalog nodes edges g) (hk : (g.node v).kind = .conditional ids)
    (hbranches : bodies.map ArmBody.branch = g.successorsAt v)
    (hkinds : ∀ b ∈ bodies, ∃ parent, (g.node b.branch).kind = .branch parent b.condition)
    (hbehind : Unfolds g (.behind v) (first.or (some v)) stop (v :: path) rest) {b : ArmBody g.size} (hb : b ∈ bodies)
    (h : Covered g (.after b.branch) (first.or (some v)) (g.pairing.mergeOf.get v) (v :: path) b.body w) :
    Covered g (.into v) first stop path (g.choiceOn id v bodies :: rest) w := by
  have widen (h : Met g stop (v :: path) rest w ∨ g.Shared w) :
      Covered g (.into v) first stop path (g.choiceOn id v bodies :: rest) w := .behindChoice hg hk hbranches hkinds h
  rcases h with (hw | hw | hw) | ⟨hw, -⟩
  · exact Or.inl (Or.inl ((hg.emits_choice hk hbranches hkinds).2 (Or.inr (Or.inl ⟨b, hb, hw⟩))))
  · exact widen (Or.inl (Or.inr (Or.inl hw)))
  · exact widen ((hbehind.behind_met hg hw).imp_right And.left)
  · exact widen (Or.inr hw)

/-- What is met behind a parallel element, or shared, is covered at the element, which opens a branch start. -/
theorem behindFork (h : Met g stop path rest w ∨ g.Shared w) :
    Covered g (.after v) first stop path (.parallel id (LaneBody.lanes id 0 lanes) :: rest) w :=
  h.imp Met.behindFork fun hw => ⟨hw, Or.inr (by simp [Place.before, Element.firstStart])⟩

/-- What is met in a lane of a parallel element, or shared, is covered at the element. -/
theorem lane (hg : Indexes catalog nodes edges g) (hbehind : Unfolds g (.behind v) (first.or (some v)) stop path rest)
    {l : LaneBody g.size} (hl : l ∈ lanes) (h : Met g (g.pairing.mergeOf.get v) path l.body w ∨ g.Shared w) :
    Covered g (.after v) first stop path (.parallel id (LaneBody.lanes id 0 lanes) :: rest) w := by
  rcases h with (hw | hw | hw) | hw
  · exact Or.inl (Or.inl (emits_parallel.2 (Or.inl ⟨l, hl, hw⟩)))
  · exact behindFork (Or.inl (Or.inr (Or.inl hw)))
  · exact behindFork ((hbehind.behind_met hg hw).imp_right And.left)
  · exact behindFork (Or.inr hw)

end Covered

end Elements

namespace Unfolds

/-- All that follows a node of a sequence is covered, and so is all that follows the place. -/
theorem covered (hg : Indexes catalog nodes edges g) {place : Place g.size} {first stop : Option (Fin g.size)}
    {path : List (Fin g.size)} {es : List Element} (h : Unfolds g place first stop path es) :
    (∀ u, Emits g es u → ∀ w, g.Follows u w → Covered g place first stop path es w) ∧
      ∀ v, place = .after v → ∀ w ∈ g.successorsAt v, Covered g place first stop path es w := by
  induction h with
  | halted => exact ⟨fun u hu => absurd hu emits_nil, nofun⟩
  | looped _ => exact ⟨fun u hu => absurd hu emits_nil, nofun⟩
  | @step v first stop path rest _ _ hk _ ih =>
    refine ⟨fun u hu w hw => ?_, nofun⟩
    rcases hg.emits_step.1 hu with rfl | hu
    · rcases hw with ⟨-, hw⟩ | ⟨hc, -⟩
      · exact .step hg (ih.2 u rfl w hw)
      · rw [not_isConditional_of_plain hk] at hc
        cases hc
    · exact .step hg (ih.1 u hu w hw)
  | @choice v first stop path ids id bodies rest _ _ hk _ hbranches hkinds _ hbehind ihbodies ihrest =>
    refine ⟨fun u hu w hw => ?_, nofun⟩
    rcases (hg.emits_choice hk hbranches hkinds).1 hu with rfl | ⟨b, hb, hu⟩ | hu
    · rcases hw with ⟨hc, -⟩ | ⟨-, x, hx, hw⟩
      · rw [isConditional_of_kind hk] at hc
        cases hc
      · rw [← hbranches] at hx
        obtain ⟨b, hb, rfl⟩ := List.mem_map.1 hx
        exact .arm hg hk hbranches hkinds hbehind hb ((ihbodies b hb).2 b.branch rfl w hw)
    · exact .arm hg hk hbranches hkinds hbehind hb ((ihbodies b hb).1 u hu w hw)
    · exact .behindChoice hg hk hbranches hkinds ((ihrest.1 u hu w hw).imp_right And.left)
  | @ends v first stop path hs =>
    refine ⟨fun u hu => absurd hu emits_nil, ?_⟩
    rintro _ ⟨⟩ w hw
    rw [hs] at hw
    cases hw
  | @follows v w first stop path es hs h ih =>
    refine ⟨fun u hu x hx => .follows h (ih.1 u hu x hx), ?_⟩
    rintro _ ⟨⟩ x hx
    rw [hs, List.mem_singleton] at hx
    exact hx ▸ Or.inl (h.into_met hg)
  | @fork v first stop path id lanes rest _ hsuccessors hlanes hbehind ihlanes ihrest =>
    constructor
    · intro u hu w hw
      rcases emits_parallel.1 hu with ⟨l, hl, hu⟩ | hu
      · exact .lane hg hbehind hl (((ihlanes l hl).1 u hu w hw).imp_right And.left)
      · exact .behindFork ((ihrest.1 u hu w hw).imp_right And.left)
    · rintro _ ⟨⟩ w hw
      rw [← hsuccessors] at hw
      obtain ⟨l, hl, rfl⟩ := List.mem_map.1 hw
      exact .lane hg hbehind hl (Or.inl ((hlanes l hl).into_met hg))
  | apart _ => exact ⟨fun u hu => absurd hu emits_nil, nofun⟩
  | left _ _ _ => exact ⟨fun u hu => absurd hu emits_nil, nofun⟩
  | resumes _ _ _ ih => exact ⟨ih.1, nofun⟩

/-- The merge node of the first choice or parallel element is met. -/
theorem merge_of_firstStart (hg : Indexes catalog nodes edges g) {place : Place g.size} {stop : Option (Fin g.size)}
    {path : List (Fin g.size)} {es : List Element} (h : Unfolds g place none stop path es) {id : String}
    (hid : Element.firstStart (place.before g) es = some id) :
    ∃ f, g.idAt f = id ∧ ∀ merge, g.pairing.mergeOf.get f = some merge → Met g stop path es merge := by
  generalize hfirst : (none : Option (Fin g.size)) = first at h
  induction h with
  | halted => cases hid
  | looped _ => cases hid
  | @step v first stop path rest _ _ _ _ ih =>
    obtain ⟨f, hf, hmet⟩ := ih ((firstStart_step _ v rest).symm.trans hid) hfirst
    exact ⟨f, hf, fun merge hm => (hmet merge hm).step hg⟩
  | @choice v first stop path ids id' bodies rest _ _ hk _ hbranches hkinds _ hbehind _ _ =>
    cases hid
    refine ⟨v, rfl, fun merge hm => ?_⟩
    subst hfirst
    rcases hbehind.behind_met hg hm with hmet | ⟨-, hne⟩
    · exact hmet.behindChoice hg hk hbranches hkinds
    · exact absurd rfl hne
  | ends _ => cases hid
  | @follows v w first stop path es _ h ih => exact ih ((h.firstStart_into _).symm.trans hid) hfirst
  | @fork v first stop path id' lanes rest _ _ _ hbehind _ _ =>
    cases hid
    refine ⟨v, rfl, fun merge hm => ?_⟩
    subst hfirst
    rcases hbehind.behind_met hg hm with hmet | ⟨-, hne⟩
    · exact hmet.behindFork
    · exact absurd rfl hne
  | apart _ => cases hid
  | left _ _ _ => cases hid
  | resumes _ _ _ ih => exact ih hid hfirst

end Unfolds

/-! ## Nodes of the flow -/

namespace Graph.Indexes

variable {catalog : NodeCatalog} {nodes : List Flow.Node} {edges : List Flow.Edge}

/-- A branch of a conditional node of the flow is a successor of that node. -/
theorem exists_branch (h : Indexes catalog nodes edges g) {n : Flow.Node} (hn : n ∈ nodes) {ids : List String}
    {v : Fin g.size} (hkind : Node.kindOf catalog n = .ok (.conditional ids)) (hv : g.node v = .declared n (.conditional ids))
    {b : Flow.Branch} (hb : b ∈ n.branches) : ∃ x ∈ g.successorsAt v, g.node x = .ofBranch n b := by
  obtain ⟨x, hx⟩ := (h.branches hn hkind).2 b hb
  obtain ⟨rfl, -⟩ := Node.kindOf_conditional hkind
  have hid : g.idAt x ∈ n.branches.map (·.id) := by
    rw [idAt_of_branch hx]
    exact List.mem_map.2 ⟨b, hb, rfl⟩
  exact ⟨x, h.mem_successorsAt.2 (Or.inl ⟨_, by rw [hv]; rfl, hid⟩), hx⟩

/-- A conditional node does not lead straight to a node of the flow. -/
theorem not_conditional_of_successor (h : Indexes catalog nodes edges g) {v w : Fin g.size}
    (hw : (g.node w).isBranch = false) (hl : w ∈ g.successorsAt v) : (g.node v).isConditional = false := by
  cases hk : (g.node v).kind with
  | conditional ids =>
    obtain ⟨m, -, -, -, -, hmatch⟩ := h.successors_conditional hk
    obtain ⟨b, -, hb⟩ := IndexingAux.exists_of_forall₂_left hmatch w hl
    rw [hb] at hw
    cases hw
  | _ => rw [Node.isConditional, hk]

end Graph.Indexes

/-- With a node a plan has every node that follows it, from one of its branches when it is conditional, except for a merge node
that several branch starts share and with which the first structure is not paired. This holds of every graph, with loops or
without, compiled without interceptors. -/
theorem successor_covered {catalog : NodeCatalog} {nodes : List Flow.Node} {edges : List Flow.Edge} {g : Graph}
    (hg : Graph.build catalog nodes edges = .ok g) {c : Compiler} (hc : c.chain = []) {flowId : String} {route : Route}
    (hr : c.compileGraph flowId g = .ok route) {u v : Flow.Node} (hu : u ∈ nodes) (hv : v ∈ nodes)
    (hin : u.id ∈ route.nodeIds)
    (hnext : v.id ∈ g.successors u.id ∨
      catalog.shapeOf? u.component = some .conditional ∧ ∃ b ∈ u.branches, v.id ∈ g.successors b.id) :
    v.id ∈ route.nodeIds ∨
      1 < (g.branchStartsOf v.id).length ∧ ∃ start, route.firstStart = some start ∧ g.branchEnd? start ≠ some v.id := by
  have h := indexes_of_build hg
  obtain ⟨entry, -, hunfolds⟩ := Compiler.unfolds_of_compileGraph hc hr
  obtain ⟨x, kindu, hkindu, hx⟩ := h.declared hu
  obtain ⟨y, kindv, hkindv, hy⟩ := h.declared hv
  rw [← idAt_of_declared hx] at hin hnext
  rw [← idAt_of_declared hy] at hnext ⊢
  have hfollows : g.Follows x y := by
    rcases hnext with hs | ⟨hshape, b, hb, hs⟩
    · have hl := h.mem_successors_idAt.1 hs
      exact Or.inl ⟨h.not_conditional_of_successor (by rw [hy]; exact Node.isBranch_declared hkindv) hl, hl⟩
    · obtain ⟨ids, x', hkind, hx'⟩ := h.kind_of_conditional hu hshape
      obtain rfl : x' = x := h.ids_injective ((idAt_of_declared hx').trans (idAt_of_declared hx).symm)
      obtain ⟨z, hz, hbranch⟩ := h.exists_branch hu hkind hx' hb
      rw [← idAt_of_branch hbranch] at hs
      exact Or.inr ⟨by rw [hx']; rfl, z, hz, h.mem_successors_idAt.1 hs⟩
  rcases (hunfolds.covered h).1 x hin y hfollows with hmet | ⟨hshared, hopen⟩
  · exact Or.inl hmet.emits
  · obtain ⟨start, hstart⟩ := Option.ne_none_iff_exists'.1 (hopen.resolve_left fun hne => hne rfl)
    by_cases hend : g.branchEnd? start = some (g.idAt y)
    · obtain ⟨f, rfl, hmet⟩ := hunfolds.merge_of_firstStart h hstart
      exact Or.inl (hmet y (h.branchEnd?_idAt_iff.1 hend)).emits
    · exact Or.inr ⟨h.shared_idAt_iff.2 hshared, start, hstart, hend⟩

/-- Two fan-outs one after the other, at A and at D. The second one holds a third, at E, that ends at the same merge node. -/
def Flow.stages : Flow where
  id := "stages"
  nodes := ["A", "B", "D", "E", "G", "I"].map fun id => { id := id, component := "script" }
  edges := [("A", "B"), ("A", "D"), ("B", "D"), ("D", "E"), ("D", "I"), ("E", "G"), ("E", "I"), ("G", "I")].map
    fun (source, target) => { source := source, target := target }

/-- In the plan of `Flow.stages`, E is followed by G. -/
theorem successor_covered_stages : ∃ g route, Graph.build .standard Flow.stages.nodes Flow.stages.edges = .ok g ∧
    Compiler.compileGraph {} "stages" g = .ok route ∧
      ("G" ∈ route.nodeIds ∨
        1 < (g.branchStartsOf "G").length ∧ ∃ start, route.firstStart = some start ∧ g.branchEnd? start ≠ some "G") := by
  obtain ⟨g, hg, hnext, route, hr, hin⟩ : ∃ g, Graph.build .standard Flow.stages.nodes Flow.stages.edges = .ok g ∧
      "G" ∈ g.successors "E" ∧ ∃ route, Compiler.compileGraph {} "stages" g = .ok route ∧ "E" ∈ route.nodeIds := by
    decide +kernel
  have hE : { id := "E", component := "script" } ∈ Flow.stages.nodes := List.mem_map_of_mem (by decide)
  have hG : { id := "G", component := "script" } ∈ Flow.stages.nodes := List.mem_map_of_mem (by decide)
  exact ⟨g, route, hg, hr, successor_covered hg rfl hr hE hG hin (Or.inl hnext)⟩

end FlowPlan
