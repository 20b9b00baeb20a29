import FlowPlan.Proofs.Compile.Placement
import FlowPlan.Proofs.Compile.Soundness

/-!
# Parts of a plan

`Stands` says where a sequence stands in a plan: behind an element or in one of its bodies, at any depth. Whatever stands in an
unfolded sequence is unfolded at a place of its own (`Unfolds.stands`). The choice or parallel element that it begins with is
opened by a node (`Opening`), and each of its bodies is unfolded behind one of the successors of that node
(`Opening.branchBody`, `Opening.successorBody`).

`Opens` says the same of all bodies of an element together, by the node that opens it (`Unfolds.opened`).
-/

namespace FlowPlan

open FlowPlan.Graph

/-! ## Sequences inside a sequence -/

namespace Element

/-- The id of the node of a step. -/
def stepId? : Element → Option String
  | .sequential node => some node.id
  | .leaf node => some node.id
  | _ => none

/-- The id of the node or branch that opens an element, a parallel one being opened by what stands right before it. -/
def start? (before : Option String) : Element → Option String
  | .choice _ node _ _ => some node.id
  | .parallel .. => before
  | _ => none

end Element

/-- The body of a choice under a branch. The plan does not name the branch without a condition; the graph does. -/
inductive BranchBody (g : Graph) : Element → (branch : String) → (body : List Element) → Prop
  | arm {id node arms otherwise} {a : Arm Element} : a ∈ arms → BranchBody g (.choice id node arms otherwise) a.id a.body
  | otherwise {id node arms body branch parent} {b : Node} : branch ∈ g.successors node.id → g.node? branch = some b →
      b.kind = .branch parent none → BranchBody g (.choice id node arms (some body)) branch body

/-- The body of a parallel element for a successor of its start. The lanes stand in the order of the successors. -/
inductive SuccessorBody (g : Graph) (start : String) : Element → (successor : String) → (body : List Element) → Prop
  | lane {id lanes p} : p ∈ lanes.zip (g.successors start) → SuccessorBody g start (.parallel id lanes) p.2 p.1.body

/-- What stands right behind the first element of a sequence or is one of its bodies, and the id of the node or branch right
before it. -/
inductive Directly (g : Graph) : List Element → (before : Option String) → List Element → Prop
  | behind {element rest} : Directly g (element :: rest) element.stepId? rest
  | inBranch {element rest branch body} : BranchBody g element branch body → Directly g (element :: rest) (some branch) body
  | inLane {id lanes rest} {l : Lane Element} : l ∈ lanes → Directly g (.parallel id lanes :: rest) none l.body

/-- A sequence stands somewhere in another one, at any depth. Both go with the id of the node or branch right before. -/
inductive Stands (g : Graph) : (around : Option String) → List Element → (before : Option String) → List Element → Prop
  | here {before es} : Stands g before es before es
  | further {around es between inner before es'} : Directly g es between inner → Stands g between inner before es' →
      Stands g around es before es'

/-- Somewhere in a sequence, at any depth, the choice or parallel element that `start` opens has these bodies. A parallel element
is opened by the node or branch right before it; `before` is the one right before the sequence. -/
inductive Opens (g : Graph) : (before : Option String) → List Element → (start : String) → (bodies : List (List Element)) → Prop
  | choice {before id node arms otherwise rest} :
      Opens g before (.choice id node arms otherwise :: rest) node.id (Element.bodiesOf arms otherwise)
  | parallel {start id lanes rest} : Opens g (some start) (.parallel id lanes :: rest) start (lanes.map (·.body))
  | behindStep {before node rest start bodies} : Opens g (some node.id) rest start bodies →
      Opens g before (.sequential node :: rest) start bodies
  | behindLeaf {before node rest start bodies} : Opens g (some node.id) rest start bodies →
      Opens g before (.leaf node :: rest) start bodies
  | behindChoice {before id node arms otherwise rest start bodies} : Opens g none rest start bodies →
      Opens g before (.choice id node arms otherwise :: rest) start bodies
  | behindParallel {before id lanes rest start bodies} : Opens g none rest start bodies →
      Opens g before (.parallel id lanes :: rest) start bodies
  | inArm {before id node arms otherwise rest start bodies} {a : Arm Element} : a ∈ arms → Opens g (some a.id) a.body start bodies →
      Opens g before (.choice id node arms otherwise :: rest) start bodies
  /-- the plan does not name the branch without a condition; the graph does -/
  | inOtherwise {before id node arms otherwise body rest start bodies branch parent} {b : Node} : otherwise = some body →
      branch ∈ g.successors node.id → g.node? branch = some b → b.kind = .branch parent none →
      Opens g (some branch) body start bodies → Opens g before (.choice id node arms otherwise :: rest) start bodies
  | inLane {before id lanes rest start bodies} {l : Lane Element} : l ∈ lanes → Opens g none l.body start bodies →
      Opens g before (.parallel id lanes :: rest) start bodies

/-- A body of the element that `v` opens: what is unfolded where a link leads from `v` to `w`. -/
def BodyAt (g : Graph) (v w : Fin g.size) (body : List Element) : Prop :=
  ∃ place first path, (place = .into w ∨ place = .after w ∧ (g.node w).isBranch = true) ∧
    Placed g place first (g.pairing.mergeOf.get v) path ∧
    Unfolds g place first (g.pairing.mergeOf.get v) path body ∧ ∃ f, first = some f ∧ (f = v ∨ g.Leads f v)

/-- The bodies of the element that `v` opens: one for each successor of `v`. -/
structure Opened (g : Graph) (v : Fin g.size) (bodies : List (List Element)) : Prop where
  sound : ∀ body ∈ bodies, ∃ w ∈ g.successorsAt v, BodyAt g v w body
  complete : ∀ w ∈ g.successorsAt v, ∃ body ∈ bodies, BodyAt g v w body

variable {catalog : NodeCatalog} {nodes : List Flow.Node} {edges : List Flow.Edge} {g : Graph}

/-- The outermost open branch start, inside the element that `v` opens. -/
theorem Placed.first_opened {place : Place g.size} {first stop : Option (Fin g.size)} {path : List (Fin g.size)}
    (h : Placed g place first stop path) {v : Fin g.size} (hv : place = .into v ∨ place = .after v) :
    ∃ f, first.or (some v) = some f ∧ (f = v ∨ g.Leads f v) := by
  cases first with
  | none => exact ⟨v, rfl, Or.inl rfl⟩
  | some f =>
    refine ⟨f, rfl, ?_⟩
    rcases hv with rfl | rfl
    · exact Or.inr (h.first f rfl)
    · exact h.first f rfl

/-- What is unfolded under a branch is a body of the choice. -/
theorem BodyAt.arm {v w : Fin g.size} {first stop : Option (Fin g.size)} {path : List (Fin g.size)} {parent : String}
    {condition : Option String} {body : List Element} (hp : Placed g (.into v) first stop path)
    (hk : (g.node w).kind = .branch parent condition) (hw : w ∈ g.successorsAt v)
    (h : Unfolds g (.after w) (first.or (some v)) (g.pairing.mergeOf.get v) (v :: path) body) : BodyAt g v w body :=
  ⟨_, _, _, Or.inr ⟨rfl, by rw [Node.isBranch, hk]⟩, hp.arm hk hw, h, hp.first_opened (Or.inl rfl)⟩

/-- What is unfolded for a successor of a fan-out is a body of the parallel element. -/
theorem BodyAt.lane {v w : Fin g.size} {first stop : Option (Fin g.size)} {path : List (Fin g.size)} {body : List Element}
    (hp : Placed g (.after v) first stop path) (hw : w ∈ g.successorsAt v)
    (h : Unfolds g (.into w) (first.or (some v)) (g.pairing.mergeOf.get v) path body) : BodyAt g v w body :=
  ⟨_, _, _, Or.inl rfl, hp.lane hw, h, hp.first_opened (Or.inr rfl)⟩

/-! ## The element that a node opens -/

/-- An element that a node opens, with what is unfolded in its bodies. -/
inductive Opening (g : Graph) (v : Fin g.size) : Element → Prop
  | choice {first stop path ids id bodies} : Placed g (.into v) first stop path → (g.node v).kind = .conditional ids →
      bodies.map ArmBody.branch = g.successorsAt v →
      (∀ b ∈ bodies, ∃ parent, (g.node b.branch).kind = .branch parent b.condition) →
      (∀ b ∈ bodies, Unfolds g (.after b.branch) (first.or (some v)) (g.pairing.mergeOf.get v) (v :: path) b.body) →
      Opening g v (g.choiceOn id v bodies)
  | fork {first stop path id lanes} : Placed g (.after v) first stop path → lanes.map LaneBody.successor = g.successorsAt v →
      (∀ l ∈ lanes, Unfolds g (.into l.successor) (first.or (some v)) (g.pairing.mergeOf.get v) path l.body) →
      Opening g v (.parallel id (LaneBody.lanes id 0 lanes))

/-- A step has the id of its node. -/
theorem stepId?_stepOn (v : Fin g.size) : (g.stepOn v).stepId? = some (g.idAt v) := by
  unfold Graph.stepOn
  split <;> rfl

/-- No structure starts at a step. -/
theorem start?_stepOn (before : Option String) (v : Fin g.size) : (g.stepOn v).start? before = none := by
  unfold Graph.stepOn
  split <;> rfl

/-- A link leads to the same element, whatever stands before it. -/
theorem start?_of_none {element : Element} {start : String} (h : element.start? none = some start) (before : Option String) :
    element.start? before = some start := by
  cases element with
  | choice id node arms otherwise => exact h
  | _ => cases h

/-- The element at the beginning of what is unfolded at a place is a step, or opened by a node. -/
theorem Unfolds.opening {place : Place g.size} {first stop : Option (Fin g.size)} {path : List (Fin g.size)} {es : List Element}
    (h : Unfolds g place first stop path es) (hp : Placed g place first stop path) {element : Element} {rest : List Element}
    (hes : es = element :: rest) : (∃ v, element = g.stepOn v ∧
        ∃ first stop path, Placed g (.after v) first stop path ∧ Unfolds g (.after v) first stop path rest) ∨
      ∃ v, Opening g v element ∧ element.start? (place.before g) = some (g.idAt v) ∧
        ∃ first stop path, Placed g (.behind v) first stop path ∧ Unfolds g (.behind v) first stop path rest := by
  induction h with
  | halted => cases hes
  | looped _ => cases hes
  | @step v _ _ _ _ _ _ hk hrest _ =>
    cases hes
    exact Or.inl ⟨v, rfl, _, _, _, hp.step hk, hrest⟩
  | @choice v _ _ _ _ _ _ _ _ _ hk _ hbranches hkinds hbodies hrest _ _ =>
    cases hes
    exact Or.inr ⟨v, .choice hp hk hbranches hkinds hbodies, rfl, _, _, _, hp.behindChoice, hrest⟩
  | ends _ => cases hes
  | follows hs _ ih =>
    refine (ih (hp.follows (hs ▸ List.mem_singleton_self _)) hes).imp_right ?_
    rintro ⟨u, hopening, hstart, hrest⟩
    exact ⟨u, hopening, start?_of_none hstart _, hrest⟩
  | @fork v _ _ _ _ _ _ _ hsuccessors hlanes hrest _ _ =>
    cases hes
    exact Or.inr ⟨v, .fork hp hsuccessors hlanes, rfl, _, _, _, hp.behindFork, hrest⟩
  | apart _ => cases hes
  | left _ _ _ => cases hes
  | resumes hm _ _ ih =>
    refine (ih (hp.resumes hm) hes).imp_right ?_
    rintro ⟨u, hopening, hstart, hrest⟩
    exact ⟨u, hopening, start?_of_none hstart _, hrest⟩

/-- The choice or parallel element at the beginning of what is unfolded at a place is opened by its start. -/
theorem Unfolds.opening_of_start {place : Place g.size} {first stop : Option (Fin g.size)} {path : List (Fin g.size)}
    {element : Element} {rest : List Element} (h : Unfolds g place first stop path (element :: rest))
    (hp : Placed g place first stop path) {start : String} (hstart : element.start? (place.before g) = some start) :
    ∃ v, g.idAt v = start ∧ Opening g v element := by
  rcases h.opening hp rfl with ⟨v, rfl, -⟩ | ⟨v, hopening, hv, -⟩
  · rw [start?_stepOn] at hstart
    cases hstart
  · rw [hstart] at hv
    exact ⟨v, (Option.some.inj hv).symm, hopening⟩

/-- What stands under a branch of a choice is unfolded behind that branch. -/
theorem Opening.branchBody (hg : Indexes catalog nodes edges g) {v : Fin g.size} {element : Element} (h : Opening g v element)
    {branch : String} {body : List Element} (hb : BranchBody g element branch body) :
    ∃ w ∈ g.successorsAt v, g.idAt w = branch ∧ (g.node w).isBranch = true ∧ ∃ first path,
      Placed g (.after w) first (g.pairing.mergeOf.get v) path ∧ Unfolds g (.after w) first (g.pairing.mergeOf.get v) path body := by
  cases h with
  | fork => cases hb
  | @choice first stop path ids id bodies hp hk hbranches hkinds hbodies =>
    obtain ⟨b, hmem, rfl, rfl⟩ : ∃ b ∈ bodies, g.idAt b.branch = branch ∧ b.body = body := by
      generalize hchoice : g.choiceOn id v bodies = element at hb
      cases hb with
      | @arm id' node arms otherwise a ha =>
        injection hchoice with _ _ harms _
        obtain ⟨b, hmem, hid, -, hbody⟩ := SoundnessAux.mem_map_named.1 (Setting.mem_armsOf.1 (harms ▸ ha))
        exact ⟨b, hmem, hid, hbody⟩
      | otherwise hbranch hnode hkind =>
        injection hchoice with _ hstep _ hsome
        rw [← hstep, show ((g.node v).toStep).id = g.idAt v from rfl, hg.successors_idAt, ← hbranches] at hbranch
        obtain ⟨w, hw, rfl⟩ := List.mem_map.1 hbranch
        obtain ⟨b, hmem, rfl⟩ := List.mem_map.1 hw
        rw [hg.node?_idAt] at hnode
        cases hnode
        -- one branch at most has no condition, so the body that the plan keeps for it is this one's
        obtain ⟨_, hkb⟩ := hkinds b hmem
        rw [hkb] at hkind
        injection hkind with _ hc
        have hbody : Setting.otherwiseOf (bodies.map (ArmBody.named g)) = some b.body :=
          (Setting.otherwiseOf_eq_some_iff (hg.length_unconditional hk hbranches hkinds)).2
            ⟨g.idAt b.branch, SoundnessAux.mem_map_named.2 ⟨b, hmem, rfl, hc, rfl⟩⟩
        exact ⟨b, hmem, rfl, Option.some.inj (hbody.symm.trans hsome)⟩
    obtain ⟨parent, hkb⟩ := hkinds b hmem
    have hw : b.branch ∈ g.successorsAt v := hbranches ▸ List.mem_map_of_mem hmem
    exact ⟨b.branch, hw, rfl, by rw [Node.isBranch, hkb], _, _, hp.arm hkb hw, hbodies b hmem⟩

/-- What stands in the lane of a successor is unfolded where a link leads to that successor. -/
theorem Opening.successorBody (hg : Indexes catalog nodes edges g) {v : Fin g.size} {element : Element} (h : Opening g v element)
    {successor : String} {body : List Element} (hb : SuccessorBody g (g.idAt v) element successor body) :
    ∃ w ∈ g.successorsAt v, g.idAt w = successor ∧ ∃ first path,
      Placed g (.into w) first (g.pairing.mergeOf.get v) path ∧ Unfolds g (.into w) first (g.pairing.mergeOf.get v) path body := by
  cases h with
  | choice => cases hb
  | @fork first stop path id lanes hp hsuccessors hlanes =>
    cases hb with
    | lane hmem =>
      rw [hg.successors_idAt, ← hsuccessors, List.map_map] at hmem
      obtain ⟨l, hl, hbody, hsuccessor⟩ := SoundnessAux.mem_zip_lanes hmem
      have hw : l.successor ∈ g.successorsAt v := hsuccessors ▸ List.mem_map_of_mem hl
      rw [hbody, hsuccessor]
      exact ⟨l.successor, hw, rfl, _, _, hp.lane hw, hlanes l hl⟩

/-- What stands in a parallel element is unfolded where a link leads to one of the successors of its start. -/
theorem Opening.lane {v : Fin g.size} {id : String} {lanes : List (Lane Element)} (h : Opening g v (.parallel id lanes))
    {l : Lane Element} (hl : l ∈ lanes) : ∃ w ∈ g.successorsAt v, ∃ first path,
      Placed g (.into w) first (g.pairing.mergeOf.get v) path ∧
        Unfolds g (.into w) first (g.pairing.mergeOf.get v) path l.body := by
  cases h with
  | @fork first stop path _ lanes hp hsuccessors hlanes =>
    have hmem := List.mem_map_of_mem (f := fun l : Lane Element => l.body) hl
    rw [Element.map_body_lanes] at hmem
    obtain ⟨l', hl', hbody⟩ := List.mem_map.1 hmem
    have hw : l'.successor ∈ g.successorsAt v := hsuccessors ▸ List.mem_map_of_mem hl'
    rw [← hbody]
    exact ⟨l'.successor, hw, _, _, hp.lane hw, hlanes l' hl'⟩

/-! ## What stands in an unfolded sequence -/

/-- What stands right behind or in the first element is unfolded at a place of its own. -/
theorem Unfolds.directly (hg : Indexes catalog nodes edges g) {place : Place g.size} {first stop : Option (Fin g.size)}
    {path : List (Fin g.size)} {es : List Element} (h : Unfolds g place first stop path es) (hp : Placed g place first stop path)
    {before : Option String} {inner : List Element} (hd : Directly g es before inner) :
    ∃ place first stop path, place.before g = before ∧ Placed g place first stop path ∧ Unfolds g place first stop path inner := by
  cases hd with
  | @behind element rest =>
    rcases h.opening hp rfl with ⟨v, rfl, first, stop, path, hp, hrest⟩ | ⟨v, hopening, -, first, stop, path, hp, hrest⟩
    · exact ⟨.after v, first, stop, path, (stepId?_stepOn v).symm, hp, hrest⟩
    · refine ⟨.behind v, first, stop, path, ?_, hp, hrest⟩
      cases hopening <;> rfl
  | inBranch hb =>
    rcases h.opening hp rfl with ⟨v, rfl, -⟩ | ⟨v, hopening, -⟩
    · unfold Graph.stepOn at hb
      split at hb <;> cases hb
    · obtain ⟨w, -, hid, -, first, path, hp, hbody⟩ := hopening.branchBody hg hb
      exact ⟨.after w, first, _, path, congrArg some hid, hp, hbody⟩
  | inLane hl =>
    rcases h.opening hp rfl with ⟨v, hstep, -⟩ | ⟨v, hopening, -⟩
    · unfold Graph.stepOn at hstep
      split at hstep <;> cases hstep
    · obtain ⟨w, -, first, path, hp, hbody⟩ := hopening.lane hl
      exact ⟨.into w, first, _, path, rfl, hp, hbody⟩

/-- What stands anywhere in an unfolded sequence is unfolded at a place of its own. -/
theorem Unfolds.stands (hg : Indexes catalog nodes edges g) {place : Place g.size} {first stop : Option (Fin g.size)}
    {path : List (Fin g.size)} {es : List Element} (h : Unfolds g place first stop path es) (hp : Placed g place first stop path)
    {before : Option String} {inner : List Element} (hs : Stands g (place.before g) es before inner) :
    ∃ place first stop path, place.before g = before ∧ Placed g place first stop path ∧ Unfolds g place first stop path inner := by
  generalize hbefore : place.before g = around at hs
  induction hs generalizing place first stop path with
  | here => exact ⟨place, first, stop, path, hbefore, hp, h⟩
  | further hd _ ih =>
    obtain ⟨place, first, stop, path, hbefore, hp, h⟩ := h.directly hg hp hd
    exact ih h hp hbefore

/-! ## The bodies of an element -/

/-- An element that a node opens has the bodies that are unfolded behind the node. -/
theorem Opening.opened (hg : Indexes catalog nodes edges g) {v : Fin g.size} {element : Element} (h : Opening g v element) :
    Opened g v element.bodies := by
  cases h with
  | @choice first stop path ids id bodies hp hk hbranches hkinds hbodies =>
    have hbody : ∀ b ∈ bodies, b.branch ∈ g.successorsAt v ∧ BodyAt g v b.branch b.body := by
      intro b hb
      obtain ⟨parent, hkb⟩ := hkinds b hb
      have hw : b.branch ∈ g.successorsAt v := hbranches ▸ List.mem_map_of_mem hb
      exact ⟨hw, .arm hp hkb hw (hbodies b hb)⟩
    constructor
    · intro body hmem
      obtain ⟨b, hb, rfl⟩ := (hg.mem_bodiesOf hk hbranches hkinds).1 hmem
      exact ⟨b.branch, hbody b hb⟩
    · intro w hw
      rw [← hbranches] at hw
      obtain ⟨b, hb, rfl⟩ := List.mem_map.1 hw
      exact ⟨b.body, (hg.mem_bodiesOf hk hbranches hkinds).2 ⟨b, hb, rfl⟩, (hbody b hb).2⟩
  | @fork first stop path id lanes hp hsuccessors hlanes =>
    have hbody : ∀ l ∈ lanes, l.successor ∈ g.successorsAt v ∧ BodyAt g v l.successor l.body := by
      intro l hl
      have hw : l.successor ∈ g.successorsAt v := hsuccessors ▸ List.mem_map_of_mem hl
      exact ⟨hw, .lane hp hw (hlanes l hl)⟩
    constructor
    · intro body hmem
      rw [Element.bodies, Element.map_body_lanes] at hmem
      obtain ⟨l, hl, rfl⟩ := List.mem_map.1 hmem
      exact ⟨l.successor, hbody l hl⟩
    · intro w hw
      rw [← hsuccessors] at hw
      obtain ⟨l, hl, rfl⟩ := List.mem_map.1 hw
      refine ⟨l.body, ?_, (hbody l hl).2⟩
      rw [Element.bodies, Element.map_body_lanes]
      exact List.mem_map_of_mem hl

/-- An element with its start stands somewhere in a sequence. -/
theorem Opens.stands {before : Option String} {es : List Element} {start : String} {bodies : List (List Element)}
    (h : Opens g before es start bodies) : ∃ around element rest, Stands g before es around (element :: rest) ∧
      element.start? around = some start ∧ element.bodies = bodies := by
  induction h with
  | choice => exact ⟨_, _, _, .here, rfl, rfl⟩
  | parallel => exact ⟨_, _, _, .here, rfl, rfl⟩
  | behindStep _ ih | behindLeaf _ ih | behindChoice _ ih | behindParallel _ ih =>
    obtain ⟨around, element, rest, hs, h⟩ := ih
    exact ⟨around, element, rest, .further .behind hs, h⟩
  | inArm ha _ ih =>
    obtain ⟨around, element, rest, hs, h⟩ := ih
    exact ⟨around, element, rest, .further (.inBranch (.arm ha)) hs, h⟩
  | inOtherwise ho hb hnode hk _ ih =>
    obtain ⟨around, element, rest, hs, h⟩ := ih
    subst ho
    exact ⟨around, element, rest, .further (.inBranch (.otherwise hb hnode hk)) hs, h⟩
  | inLane hl _ ih =>
    obtain ⟨around, element, rest, hs, h⟩ := ih
    exact ⟨around, element, rest, .further (.inLane hl) hs, h⟩

/-- An element of a plan has the bodies that are unfolded behind its start. -/
theorem Unfolds.opened (hg : Indexes catalog nodes edges g) {place : Place g.size} {first stop : Option (Fin g.size)}
    {path : List (Fin g.size)} {es : List Element} (h : Unfolds g place first stop path es) (hp : Placed g place first stop path)
    {start : String} {bodies : List (List Element)} (ho : Opens g (place.before g) es start bodies) :
    ∃ v, g.idAt v = start ∧ Opened g v bodies := by
  obtain ⟨around, element, rest, hs, hstart, rfl⟩ := ho.stands
  obtain ⟨place, first, stop, path, hbefore, hp, h⟩ := h.stands hg hp hs
  obtain ⟨v, hv, hopening⟩ := h.opening_of_start hp (hbefore ▸ hstart)
  exact ⟨v, hv, hopening.opened hg⟩

end FlowPlan
