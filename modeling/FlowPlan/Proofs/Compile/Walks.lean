import FlowPlan.Proofs.Compile.Losses
import FlowPlan.Proofs.Compile.Soundness

/-!
# Walks of a plan and paths of its graph

A `Walk` visits the steps of a plan and, at each choice, of one of its bodies. A `Graph.MaximalPath` follows links to the end. In a
flow without loops and fan-outs, the walks of the plan are the maximal paths from the entry, branches left out
(`walk_iff_maximalPath`), as long as no shared merge node is left to an element that is not there.

The proof goes over the unfolding with what a walk visits behind a sequence: `Visits es ends` when it goes on with one of
`ends` there. What a place must know of `ends` is `Continued`.
-/

namespace FlowPlan

open FlowPlan.Graph

/-! ## Walks -/

/-- The nodes that a walk of a sequence visits, and whether the whole walk ends there, at a leaf. -/
inductive Walk : List Element → List String → Bool → Prop
  | nil : Walk [] [] false
  | sequential {node rest p ended} : Walk rest p ended → Walk (.sequential node :: rest) (node.id :: p) ended
  | leaf {node rest} : Walk (.leaf node :: rest) [node.id] true
  /-- the whole walk ends in a body of the choice -/
  | inside {id node arms otherwise rest body p} : body ∈ Element.bodiesOf arms otherwise → Walk body p true →
      Walk (.choice id node arms otherwise :: rest) (node.id :: p) true
  /-- the walk goes on behind the choice -/
  | through {id node arms otherwise rest body p q ended} : body ∈ Element.bodiesOf arms otherwise → Walk body p false →
      Walk rest q ended → Walk (.choice id node arms otherwise :: rest) (node.id :: (p ++ q)) ended

/-- What a walk visits that goes on behind a sequence as `ends` says, unless it ends in the sequence. -/
def Visits (es : List Element) (ends : List String → Prop) (p : List String) : Prop :=
  Walk es p true ∨ ∃ q r, Walk es q false ∧ ends r ∧ p = q ++ r

section Visits

variable {ends : List String → Prop} {rest : List Element} {node : Step} {p : List String}

@[simp] theorem visits_nil : Visits [] ends p ↔ ends p := by
  constructor
  · rintro (h | ⟨q, r, h, hr, rfl⟩)
    · cases h
    · cases h
      exact hr
  · exact fun h => Or.inr ⟨[], p, .nil, h, rfl⟩

/-- A step is visited before what follows it. -/
theorem visits_sequential :
    Visits (.sequential node :: rest) ends p ↔ ∃ q, p = node.id :: q ∧ Visits rest ends q := by
  constructor
  · rintro (h | ⟨q, r, h, hr, rfl⟩)
    · cases h with
      | sequential h => exact ⟨_, rfl, Or.inl h⟩
    · cases h with
      | sequential h => exact ⟨_, rfl, Or.inr ⟨_, r, h, hr, rfl⟩⟩
  · rintro ⟨q, rfl, h | ⟨q, r, h, hr, rfl⟩⟩
    · exact Or.inl (.sequential h)
    · exact Or.inr ⟨node.id :: q, r, .sequential h, hr, rfl⟩

/-- A leaf is the last one to be visited, whatever follows. -/
theorem visits_leaf : Visits (.leaf node :: rest) ends p ↔ p = [node.id] := by
  constructor
  · rintro (h | ⟨q, r, h, -, -⟩)
    · cases h
      rfl
    · cases h
  · rintro rfl
    exact Or.inl .leaf

/-- A choice is visited, then one of its bodies, and then what follows the choice if the walk comes to the end of the body. -/
theorem visits_choice {id : String} {arms : List (Arm Element)} {otherwise : Option (List Element)} :
    Visits (.choice id node arms otherwise :: rest) ends p ↔
      ∃ q, p = node.id :: q ∧ ∃ body ∈ Element.bodiesOf arms otherwise, Visits body (Visits rest ends) q := by
  constructor
  · rintro (h | ⟨q, r, h, hr, rfl⟩)
    · cases h with
      | inside hbody h => exact ⟨_, rfl, _, hbody, Or.inl h⟩
      | through hbody h h' => exact ⟨_, rfl, _, hbody, Or.inr ⟨_, _, h, Or.inl h', rfl⟩⟩
    · cases h with
      | through hbody h h' =>
        refine ⟨_, List.cons_append, _, hbody, Or.inr ⟨_, _, h, Or.inr ⟨_, r, h', hr, rfl⟩, ?_⟩⟩
        exact List.append_assoc ..
  · rintro ⟨q, rfl, body, hbody, h | ⟨q, r, h, h' | ⟨q', r', h', hr, rfl⟩, rfl⟩⟩
    · exact Or.inl (.inside hbody h)
    · exact Or.inl (.through hbody h h')
    · exact Or.inr ⟨node.id :: (q ++ q'), r', .through hbody h h', hr, by simp⟩

end Visits

/-! ## Paths -/

namespace Graph

/-- A path, by ids, that follows links until there is none. -/
inductive MaximalPath (g : Graph) : String → List String → Prop
  | ends {v} : g.successors v = [] → MaximalPath g v [v]
  | step {v w p} : w ∈ g.successors v → MaximalPath g w p → MaximalPath g v (v :: p)

/-- An id is the id of a branch. -/
def isBranchId (g : Graph) (id : String) : Bool :=
  (g.node? id).any Node.isBranch

/-- What is visited at a node and after it; branches are left out. -/
def visited (g : Graph) (v : Fin g.size) (p : List String) : List String :=
  if (g.node v).isBranch then p else g.idAt v :: p

/-- What a maximal path from a node visits, branches left out. -/
inductive Trail (g : Graph) : Fin g.size → List String → Prop
  | ends {v} : g.successorsAt v = [] → Trail g v (g.visited v [])
  | step {v w p} : w ∈ g.successorsAt v → Trail g w p → Trail g v (g.visited v p)

variable {g : Graph} {v : Fin g.size} {p : List String}

theorem visited_of_branch (hv : (g.node v).isBranch = true) : g.visited v p = p :=
  if_pos hv

theorem visited_of_not_branch (hv : (g.node v).isBranch = false) : g.visited v p = g.idAt v :: p :=
  if_neg (by rw [hv]; exact Bool.false_ne_true)

/-- Without a link to follow, a trail ends. -/
theorem trail_of_last (hs : g.successorsAt v = []) : g.Trail v p ↔ p = g.visited v [] := by
  constructor
  · intro h
    cases h with
    | ends _ => rfl
    | step hw _ =>
      rw [hs] at hw
      cases hw
  · rintro rfl
    exact .ends hs

/-- With links, a trail follows one of them. -/
theorem trail_of_successors (hs : g.successorsAt v ≠ []) :
    g.Trail v p ↔ ∃ q, p = g.visited v q ∧ ∃ w ∈ g.successorsAt v, g.Trail w q := by
  constructor
  · intro h
    cases h with
    | ends hs' => exact absurd hs' hs
    | step hw h => exact ⟨_, rfl, _, hw, h⟩
  · rintro ⟨q, rfl, w, hw, h⟩
    exact .step hw h

/-- A trail is a maximal path without its branches. -/
theorem Indexes.trail_iff {catalog : NodeCatalog} {nodes : List Flow.Node} {edges : List Flow.Edge}
    (h : Indexes catalog nodes edges g) :
    g.Trail v p ↔ ∃ q, g.MaximalPath (g.idAt v) q ∧ p = q.filter fun id => !g.isBranchId id := by
  have filter_cons : ∀ v q, (g.idAt v :: q).filter (fun id => !g.isBranchId id) =
      g.visited v (q.filter fun id => !g.isBranchId id) := by
    intro v q
    have hid : g.isBranchId (g.idAt v) = (g.node v).isBranch := by
      simp [isBranchId]
    rw [List.filter_cons, hid, visited]
    cases (g.node v).isBranch <;> rfl
  constructor
  · intro ht
    induction ht with
    | @ends v hs => exact ⟨[g.idAt v], .ends (by simp [hs]), (filter_cons v []).symm⟩
    | @step v w p hw _ ih =>
      obtain ⟨q, hq, rfl⟩ := ih
      exact ⟨g.idAt v :: q, .step (h.mem_successors_idAt.2 hw) hq, (filter_cons v q).symm⟩
  · rintro ⟨q, hq, rfl⟩
    generalize hid : g.idAt v = id at hq
    induction hq generalizing v with
    | @ends id hs =>
      subst hid
      rw [filter_cons]
      exact .ends (by simpa using hs)
    | @step id id' q hw _ ih =>
      subst hid
      rw [h.successors_idAt] at hw
      obtain ⟨w, hw', rfl⟩ := List.mem_map.1 hw
      rw [filter_cons]
      exact .step hw' (ih rfl)

end Graph

/-! ## The walks of an unfolding -/

/-- The node at or right before a place. -/
def Place.node {n : Nat} : Place n → Fin n
  | .into v => v
  | .after v => v
  | .behind v => v

/-- What is known of `ends` at a place: it holds what the node to stop before has, and, for as long as it comes, what the merge
node of the outermost branch start has, when that one is shared and left to the outermost element. -/
structure Continued (g : Graph) (place : Place g.size) (first stop : Option (Fin g.size)) (ends : List String → Prop) :
    Prop where
  stop : ∀ e, stop = some e → ∀ p, ends p ↔ g.Trail e p
  left : ∀ f e, first = some f → f ≠ place.node → g.pairing.mergeOf.get f = some e → g.Shared e → g.Leads place.node e →
    ∀ p, ends p ↔ g.Trail e p
  /-- a branch start is open behind a choice or parallel element -/
  opened : ∀ v, place = .behind v → first ≠ none

/-- What the walks of a sequence visit at a place. -/
def Place.Visited (g : Graph) (es : List Element) (ends : List String → Prop) : Place g.size → Prop
  | .into v => ∀ p, Visits es ends p ↔ g.Trail v p
  | .after v => g.successorsAt v ≠ [] → ∀ p, Visits es ends p ↔ ∃ w ∈ g.successorsAt v, g.Trail w p
  | .behind v => (∀ m, g.pairing.mergeOf.get v = some m → ∀ p, Visits es ends p ↔ g.Trail m p) ∧
      (g.pairing.mergeOf.get v = none → es = [])

variable {catalog : NodeCatalog} {nodes : List Flow.Node} {edges : List Flow.Edge} {g : Graph}

section Places

variable {v w merge : Fin g.size} {first stop : Option (Fin g.size)} {path : List (Fin g.size)} {rest : List Element}
  {ends : List String → Prop}

namespace Continued

/-- What follows a plain node. -/
theorem step (hk : Continued g (.into v) first stop ends) : Continued g (.after v) first stop ends :=
  ⟨hk.stop, hk.left, nofun⟩

/-- What the only link leads to. -/
theorem follows (hk : Continued g (.after v) first stop ends) (hs : g.successorsAt v = [w]) :
    Continued g (.into w) first stop ends := by
  refine ⟨hk.stop, fun f e hf _ hm he hl => ?_, nofun⟩
  refine hk.left f e hf ?_ hm he (.trans (.of_mem (hs ▸ List.mem_singleton_self w)) hl)
  rintro rfl
  exact mergeOf_ne_of_single hs hm

/-- What continues a choice. -/
theorem behindChoice (hk : Continued g (.into v) first stop ends) : Continued g (.behind v) (first.or (some v)) stop ends := by
  refine ⟨hk.stop, fun f e hf hne => ?_, fun _ _ => or_some_ne_none first v⟩
  rcases eq_of_or_some hf with hf | ⟨-, rfl⟩
  · exact hk.left f e hf hne
  · exact absurd rfl hne

/-- A body of a choice goes on with what continues the choice. -/
theorem arm (hacyclic : g.Acyclic) (hp : Placed g (.into v) first stop path) (hk : Continued g (.into v) first stop ends)
    (hw : w ∈ g.successorsAt v) (hrest : (Place.behind v).Visited g rest ends) :
    Continued g (.after w) (first.or (some v)) (g.pairing.mergeOf.get v) (Visits rest ends) := by
  refine ⟨hrest.1, fun f e hf _ hmf he hl => ?_, nofun⟩
  have hve : g.Leads v e := .trans (.of_mem hw) hl
  by_cases hm : g.pairing.mergeOf.get v = some e
  · exact hrest.1 e hm
  -- the node has a single branch, so nothing continues the choice
  · rcases eq_of_or_some hf with hf | ⟨-, rfl⟩
    · have hfv : f ≠ v := by
        rintro rfl
        exact hm hmf
      have hone : ¬ 1 < (g.successorsAt v).length := fun hmany =>
        hm (mergeOf_of_stop hacyclic hmf (Or.inr (hp.first f hf)) hmany hve)
      intro p
      rw [hrest.2 (mergeOf_eq_none hone), visits_nil]
      exact hk.left f e hf hfv hmf he hve p
    · exact absurd hmf hm

/-- The merge node of the element right before. -/
theorem resumes (hacyclic : g.Acyclic) (hk : Continued g (.behind v) first stop ends)
    (hm : g.pairing.mergeOf.get v = some merge) : Continued g (.into merge) first stop ends := by
  refine ⟨hk.stop, fun f e hf _ hmf he hl => ?_, nofun⟩
  refine hk.left f e hf ?_ hmf he (.trans (mergeOf_eq_some_iff.1 hm).leads hl)
  rintro rfl
  obtain rfl : merge = e := Option.some.inj (hm.symm.trans hmf)
  exact hacyclic merge hl

end Continued

namespace Place.Visited

/-- A step visits its node and then what follows it. -/
theorem step (hkind : (g.node v).kind = .plain) (hrest : (Place.after v).Visited g rest ends) :
    (Place.into v).Visited g (g.stepOn v :: rest) ends := by
  have hv : (g.node v).isBranch = false := by rw [Node.isBranch, hkind]
  intro p
  by_cases hs : g.successorsAt v = []
  · rw [stepOn, if_pos (List.isEmpty_iff.2 hs), visits_leaf, trail_of_last hs, visited_of_not_branch hv]
    rfl
  · rw [stepOn, if_neg (mt List.isEmpty_iff.1 hs), visits_sequential, trail_of_successors hs]
    refine exists_congr fun q => ?_
    rw [visited_of_not_branch hv, hrest hs q]
    rfl

/-- A choice visits its node and then one of its bodies, each of which visits what its branch leads to. -/
theorem choice (hg : Indexes catalog nodes edges g) {ids : List String} {id : String} {bodies : List (ArmBody g.size)}
    (hkind : (g.node v).kind = .conditional ids) (hs : g.successorsAt v ≠ [])
    (hbranches : bodies.map ArmBody.branch = g.successorsAt v)
    (hkinds : ∀ b ∈ bodies, ∃ parent, (g.node b.branch).kind = .branch parent b.condition)
    (hbodies : ∀ b ∈ bodies, ∀ q, Visits b.body (Visits rest ends) q ↔ g.Trail b.branch q) :
    (Place.into v).Visited g (g.choiceOn id v bodies :: rest) ends := by
  intro p
  rw [choiceOn, visits_choice, trail_of_successors hs]
  refine exists_congr fun q => ?_
  rw [visited_of_not_branch (not_isBranch_of_isConditional (isConditional_of_kind hkind))]
  refine and_congr Iff.rfl ?_
  simp only [hg.mem_bodiesOf hkind hbranches hkinds]
  constructor
  · rintro ⟨_, ⟨b, hb, rfl⟩, hq⟩
    exact ⟨b.branch, hbranches ▸ List.mem_map_of_mem hb, (hbodies b hb q).1 hq⟩
  · rintro ⟨w, hw, hq⟩
    rw [← hbranches] at hw
    obtain ⟨b, hb, rfl⟩ := List.mem_map.1 hw
    exact ⟨b.body, ⟨b, hb, rfl⟩, (hbodies b hb q).2 hq⟩

/-- What follows a branch is all that is visited at it. -/
theorem branch (hw : (g.node w).isBranch = true) (hs : g.successorsAt w ≠ []) {body : List Element}
    (hbody : (Place.after w).Visited g body ends) (q : List String) : Visits body ends q ↔ g.Trail w q := by
  rw [hbody hs q, trail_of_successors hs]
  simp only [visited_of_branch hw, exists_eq_left']

/-- A merge node that is left to the outermost element is visited there. -/
theorem left (hm : g.pairing.mergeOf.get v = some merge) (he : g.Shared merge) (hfirst : first ≠ some v)
    (houter : ∀ f, first = some f → g.pairing.mergeOf.get f = some merge) (hk : Continued g (.behind v) first stop ends) :
    (Place.behind v).Visited g [] ends := by
  refine ⟨fun m hm' p => ?_, fun _ => rfl⟩
  obtain rfl : merge = m := Option.some.inj (hm.symm.trans hm')
  obtain ⟨f, rfl⟩ := Option.ne_none_iff_exists'.1 (hk.opened v rfl)
  have hf : f ≠ v := fun hf => hfirst (hf ▸ rfl)
  exact visits_nil.trans (hk.left f merge rfl hf (houter f rfl) he (mergeOf_eq_some_iff.1 hm).leads p)

end Place.Visited

end Places

/-- The walks of an unfolding visit what the paths from its place visit. -/
theorem Unfolds.visited (hg : Indexes catalog nodes edges g) (hacyclic : g.Acyclic)
    (hsingle : ∀ v, 1 < (g.successorsAt v).length → (g.node v).isConditional = true)
    (hbranch : ∀ v, (g.node v).isBranch = true → g.successorsAt v ≠ []) {place : Place g.size}
    {first stop : Option (Fin g.size)} {path : List (Fin g.size)} {es : List Element} (h : Unfolds g place first stop path es)
    (hp : Placed g place first stop path)
    (hshared : ∀ f, Outermost g place first es f → ∀ e, g.Shared e → g.pairing.mergeOf.get f = some e)
    {ends : List String → Prop} (hk : Continued g place first stop ends) : place.Visited g es ends := by
  induction h generalizing ends with
  | halted => exact fun p => visits_nil.trans (hk.stop _ rfl p)
  | looped hm => exact absurd hm (hp.not_mem_path hacyclic)
  | step _ _ hkind _ ih => exact .step hkind (ih (hp.step hkind) (fun f hf => hshared f hf.step) hk.step)
  | choice _ _ hkind hs hbranches hkinds _ _ ihbodies ihrest =>
    have hrest := ihrest hp.behindChoice (fun f hf => hshared f (hf.opened rfl)) hk.behindChoice
    refine .choice hg hkind hs hbranches hkinds fun b hb q => ?_
    have hw := hbranches ▸ List.mem_map_of_mem hb
    obtain ⟨parent, hkb⟩ := hkinds b hb
    have hbb : (g.node b.branch).isBranch = true := by rw [Node.isBranch, hkb]
    have hbody := ihbodies b hb (hp.arm hkb hw) (fun f hf => hshared f (hf.opened rfl)) (hk.arm hacyclic hp hw hrest)
    exact Place.Visited.branch hbb (hbranch _ hbb) hbody q
  | ends hs => exact fun hs' => absurd hs hs'
  | @follows v w first stop path es hs h ih =>
    intro _ p
    rw [hs]
    simpa using ih (hp.follows (hs ▸ List.mem_singleton_self w)) (fun f hf => hshared f (hf.follows h)) (hk.follows hs) p
  | @fork v first stop path id lanes rest hmany _ _ _ _ _ =>
    have hc := hsingle v hmany
    rw [hp.single v rfl] at hc
    cases hc
  | apart hnone =>
    refine ⟨fun m hm => ?_, fun _ => rfl⟩
    rw [hnone] at hm
    cases hm
  | left hm he hfirst => exact .left hm he hfirst (fun f hf => hshared f (hf ▸ rfl) _ he) hk
  | @resumes v merge first stop path es hm _ _ ih =>
    refine ⟨fun m hm' => ?_, fun hnone => ?_⟩
    · obtain rfl : merge = m := Option.some.inj (hm.symm.trans hm')
      exact ih (hp.resumes hm) hshared (hk.resumes hacyclic hm)
    · rw [hm] at hnone
      cases hnone

/-- The plan of a flow without loops, compiled without interceptors, means what the flow does: its walks visit what the maximal
paths from the entry visit, branches left out. Only conditional nodes may have several successors, every branch must have one,
and a merge node that several branch starts share must be the one with which the first choice is paired. -/
theorem walk_iff_maximalPath {c : Compiler} (hc : c.chain = []) {f : Flow} {g : Graph} (hg : c.index f = .ok g)
    (hacyclic : g.Acyclic) {route : Route} (hr : c.compile f = .ok route)
    (hsingle : ∀ v node, g.node? v = some node → 1 < g.outDegree v → node.isConditional = true)
    (hbranch : ∀ b, g.isBranchId b = true → g.outDegree b ≠ 0)
    (hshared : ∀ e, 1 < (g.branchStartsOf e).length → route.firstStart.bind g.branchEnd? = some e) (p : List String) :
    (∃ ended, Walk route.steps p ended) ↔
      ∃ entry q, g.entry.map g.idAt = .ok entry ∧ g.MaximalPath entry q ∧ p = q.filter fun id => !g.isBranchId id := by
  have h : Indexes c.catalog f.nodes f.edges g := indexes_of_build hg
  obtain ⟨entry, hentry, hunfolds⟩ := Compiler.unfolds_of_compileGraph hc (Compiler.compileGraph_of_compile hg hr)
  have hvisited : ∀ p, Visits route.steps (· = []) p ↔ g.Trail entry p := by
    refine hunfolds.visited h hacyclic ?_ ?_ (.entry entry) ?_ ⟨nofun, nofun, nofun⟩
    · intro v hv
      exact hsingle (g.idAt v) (g.node v) (h.node?_idAt v) (by simpa using hv)
    · intro v hv hs
      exact hbranch (g.idAt v) (by simpa [isBranchId] using hv) (by simp [hs])
    · intro f hf e he
      have hend := hshared (g.idAt e) (h.shared_idAt_iff.2 he)
      rw [Route.firstStart, show Element.firstStart none route.steps = some (g.idAt f) from hf, Option.bind_some] at hend
      exact h.branchEnd?_idAt_iff.1 hend
  have hwalk : (∃ ended, Walk route.steps p ended) ↔ Visits route.steps (· = []) p := by
    constructor
    · rintro ⟨ended, hw⟩
      cases ended with
      | true => exact Or.inl hw
      | false => exact Or.inr ⟨p, [], hw, rfl, (List.append_nil p).symm⟩
    · rintro (hw | ⟨q, r, hw, rfl, rfl⟩)
      · exact ⟨true, hw⟩
      · exact ⟨false, by rwa [List.append_nil]⟩
  rw [hwalk, hvisited, h.trail_iff]
  constructor
  · rintro ⟨q, hq, hp⟩
    exact ⟨g.idAt entry, q, by rw [hentry]; rfl, hq, hp⟩
  · rintro ⟨entry', q, he, hq, hp⟩
    rw [hentry] at he
    cases he
    exact ⟨q, hq, hp⟩

/-- The walks of the plan of `Flow.approval`, where C and E share the merge node D. -/
theorem walk_iff_maximalPath_approval : ∃ g route, Compiler.index {} Flow.approval = .ok g ∧ g.Acyclic ∧
    Compiler.compile {} Flow.approval = .ok route ∧ 1 < (g.branchStartsOf "D").length ∧
      ((∃ ended, Walk route.steps ["A", "C", "E", "B", "D"] ended) ↔
        ∃ entry q, g.entry.map g.idAt = .ok entry ∧ g.MaximalPath entry q ∧
          ["A", "C", "E", "B", "D"] = q.filter fun id => !g.isBranchId id) := by
  obtain ⟨g, hg, hacyclic, hd, hsingle, hbranch, hshared⟩ : ∃ g, Compiler.index {} Flow.approval = .ok g ∧ g.Acyclic ∧
      1 < (g.branchStartsOf "D").length ∧
      (∀ v, 1 < g.outDegree (g.idAt v) → (g.node v).isConditional = true) ∧
      (∀ v, (g.node v).isBranch = true → g.outDegree (g.idAt v) ≠ 0) ∧
      ∀ e, 1 < (g.branchStartsOf (g.idAt e)).length → g.branchEnd? "C" = some (g.idAt e) := by
    decide +kernel
  obtain ⟨route, hr, hfirst⟩ : ∃ route, Compiler.compile {} Flow.approval = .ok route ∧ route.firstStart = some "C" := by
    decide +kernel
  have h := indexes_of_build hg
  refine ⟨g, route, hg, hacyclic, hr, hd, walk_iff_maximalPath rfl hg hacyclic hr ?_ ?_ ?_ _⟩
  · intro id node hnode hmany
    obtain ⟨v, rfl, rfl⟩ := h.exists_of_node? hnode
    exact hsingle v hmany
  · intro id hid
    obtain ⟨node, hnode, hb⟩ := (Option.any_eq_true _ _).1 hid
    obtain ⟨v, rfl, rfl⟩ := h.exists_of_node? hnode
    exact hbranch v hb
  · intro id he
    obtain ⟨e, rfl⟩ := h.exists_of_branchStartsOf (Nat.lt_trans Nat.zero_lt_one he)
    rw [hfirst, Option.bind_some]
    exact hshared e he

end FlowPlan
