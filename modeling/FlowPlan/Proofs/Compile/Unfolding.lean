import FlowPlan.Compile.Compiler
import FlowPlan.Proofs.Compile.Progress

/-!
# What a compilation unfolds

`Unfolds` relates a place in a graph to the elements that a plan has there, when no interceptor changes them: what stands where
a link leads to a node, what follows a node, and what follows a choice or parallel element. It says nothing of depth, counters
and events. Whatever a compilation returns unfolds the graph (`Setting.unfold_unfolds`), a plan from the entry on
(`Compiler.unfolds_of_compileGraph`).
-/

namespace FlowPlan

open FlowPlan.Graph

/-- Where a plan goes on. -/
inductive Place (n : Nat)
  /-- a link leads to this node -/
  | into (v : Fin n)
  /-- this node or branch stands right before -/
  | after (v : Fin n)
  /-- the choice or parallel element that this node opens stands right before -/
  | behind (v : Fin n)

/-- The body of a choice under one of its branches. -/
structure ArmBody (n : Nat) where
  branch : Fin n
  condition : Option String
  body : List Element

/-- The body of a parallel element for one of its successors. -/
structure LaneBody (n : Nat) where
  successor : Fin n
  body : List Element

/-- A body with the id of its branch. -/
def ArmBody.named (g : Graph) (b : ArmBody g.size) : String × Option String × List Element :=
  (g.idAt b.branch, b.condition, b.body)

/-- The lanes of a parallel element from the given index on. -/
def LaneBody.lanes {n : Nat} (id : String) : (index : Nat) → List (LaneBody n) → List (Lane Element)
  | _, [] => []
  | index, l :: rest => ⟨id ++ "-" ++ toString index, l.body⟩ :: lanes id (index + 1) rest

/-- The step on a node. -/
def Graph.stepOn (g : Graph) (v : Fin g.size) : Element :=
  if (g.successorsAt v).isEmpty then .leaf (g.node v).toStep else .sequential (g.node v).toStep

/-- The choice on a node, with its bodies. -/
def Graph.choiceOn (g : Graph) (id : String) (v : Fin g.size) (bodies : List (ArmBody g.size)) : Element :=
  .choice id (g.node v).toStep (Setting.armsOf (bodies.map (ArmBody.named g)))
    (Setting.otherwiseOf (bodies.map (ArmBody.named g)))

/-- The elements that a plan has at a place, given the outermost open branch start, the node to stop before and the nodes on the
path. -/
inductive Unfolds (g : Graph) :
    Place g.size → (first stop : Option (Fin g.size)) → (path : List (Fin g.size)) → List Element → Prop
  /-- the node to stop before -/
  | halted {v first path} : Unfolds g (.into v) first (some v) path []
  /-- a link back to a node on the path -/
  | looped {v first stop path} : v ∈ path → Unfolds g (.into v) first stop path []
  | step {v first stop path rest} : stop ≠ some v → v ∉ path → (g.node v).kind = .plain →
      Unfolds g (.after v) first stop (v :: path) rest → Unfolds g (.into v) first stop path (g.stepOn v :: rest)
  | choice {v first stop path ids id bodies rest} : stop ≠ some v → v ∉ path → (g.node v).kind = .conditional ids →
      g.successorsAt v ≠ [] → bodies.map ArmBody.branch = g.successorsAt v →
      (∀ b ∈ bodies, ∃ parent, (g.node b.branch).kind = .branch parent b.condition) →
      (∀ b ∈ bodies, Unfolds g (.after b.branch) (first.or (some v)) (g.pairing.mergeOf.get v) (v :: path) b.body) →
      Unfolds g (.behind v) (first.or (some v)) stop (v :: path) rest →
      Unfolds g (.into v) first stop path (g.choiceOn id v bodies :: rest)
  /-- nothing follows -/
  | ends {v first stop path} : g.successorsAt v = [] → Unfolds g (.after v) first stop path []
  | follows {v w first stop path es} : g.successorsAt v = [w] → Unfolds g (.into w) first stop path es →
      Unfolds g (.after v) first stop path es
  | fork {v first stop path id lanes rest} : 1 < (g.successorsAt v).length →
      lanes.map LaneBody.successor = g.successorsAt v →
      (∀ l ∈ lanes, Unfolds g (.into l.successor) (first.or (some v)) (g.pairing.mergeOf.get v) path l.body) →
      Unfolds g (.behind v) (first.or (some v)) stop path rest →
      Unfolds g (.after v) first stop path (.parallel id (LaneBody.lanes id 0 lanes) :: rest)
  /-- the branches never meet again -/
  | apart {v first stop path} : g.pairing.mergeOf.get v = none → Unfolds g (.behind v) first stop path []
  /-- the merge node is left to the outermost open branch start -/
  | left {v merge first stop path} : g.pairing.mergeOf.get v = some merge →
      1 < (g.pairing.startsOf.get merge).length → first ≠ some v → Unfolds g (.behind v) first stop path []
  | resumes {v merge first stop path es} : g.pairing.mergeOf.get v = some merge →
      (1 < (g.pairing.startsOf.get merge).length → first = some v) →
      Unfolds g (.into merge) first stop path es → Unfolds g (.behind v) first stop path es

namespace Setting

variable {g : Graph} {s : Setting g}

/-! ## Single elements -/

/-- Without interceptors an element comes back as it is. -/
theorem submit_returns (hc : s.chain = []) {element e : Element} {p q : Progress} (h : (submit s element).Returns p e q) :
    e = element := by
  obtain ⟨-, r, -, h⟩ := Build.returns_bind.1 h
  rw [hc] at h
  exact (Build.returns_pure.1 h).1

/-- Without interceptors a step is the one on its node. -/
theorem step_returns (hc : s.chain = []) {v : Fin g.size} {e : Element} {p q : Progress} (h : (s.step v).Returns p e q) :
    e = g.stepOn v := by
  obtain ⟨-, r, -, h⟩ := Build.returns_bind.1 h
  exact submit_returns hc h

theorem steps_returns (hc : s.chain = []) {vs : List (Fin g.size)} {es : List Element} {p q : Progress}
    (h : (s.steps vs).Returns p es q) : es = vs.map g.stepOn := by
  induction vs generalizing es p q with
  | nil => exact (Build.returns_pure.1 h).1
  | cons v rest ih =>
    obtain ⟨first, r, hfirst, h⟩ := Build.returns_bind.1 h
    obtain ⟨others, r', hothers, h⟩ := Build.returns_bind.1 h
    obtain ⟨rfl, -⟩ := Build.returns_pure.1 h
    rw [step_returns hc hfirst, ih hothers, List.map_cons]

/-! ## Segments -/

/-- When a segment is unfolded: a choice on a conditional node that may be entered, and a parallel element on a fan-out. -/
def Ready : Segment g.size → Option (Fin g.size) → Scope g.size → Prop
  | .after _, _, _ => True
  | .choice v, stop, scope => stop ≠ some v ∧ v ∉ scope.path ∧ ∃ ids, (g.node v).kind = .conditional ids
  | .fork v, _, _ => 1 < (g.successorsAt v).length

/-- The place where a segment stands. -/
def placeOf : Segment g.size → Place g.size
  | .after v => .after v
  | .choice v => .into v
  | .fork v => .after v

/-- Whatever an unfolder returns unfolds the graph. -/
def Sound (deeper : Unfolder g) : Prop :=
  ∀ {segment stop scope p es q}, (deeper segment stop scope).Returns p es q → Ready segment stop scope →
    Unfolds g (placeOf segment) scope.opened.head? stop scope.path es

variable {deeper : Unfolder g}

/-- What begins at a node unfolds it, by the kind of the node. -/
theorem unfoldFrom_returns (hc : s.chain = []) (hd : Sound deeper) {stray : String → Obstacle} {stop : Option (Fin g.size)}
    {scope : Scope g.size} {v : Fin g.size} {es : List Element} {p q : Progress} (hstop : stop ≠ some v)
    (hpath : v ∉ scope.path) (h : (s.unfoldFrom deeper stray stop scope v).Returns p es q) :
    Unfolds g (.into v) scope.opened.head? stop scope.path es := by
  unfold unfoldFrom at h
  split at h
  · rename_i hk
    obtain ⟨first, r, hfirst, h⟩ := Build.returns_bind.1 h
    obtain ⟨rest, r', hrest, h⟩ := Build.returns_bind.1 h
    obtain ⟨rfl, -⟩ := Build.returns_pure.1 h
    rw [step_returns hc hfirst]
    exact .step hstop hpath hk (hd hrest trivial)
  · rename_i ids hk
    exact hd h ⟨hstop, hpath, ids, hk⟩
  · exact absurd h Build.not_returns_throw
  · exact absurd h Build.not_returns_throw

/-- What the end of a run leaves to unfold. -/
def Ends (g : Graph) (first stop : Option (Fin g.size)) (path : List (Fin g.size)) : RunEnd g.size → List Element → Prop
  | .done, es => es = []
  | .fork start, es => 1 < (g.successorsAt start).length → Unfolds g (.after start) first stop path es
  | .loop _ _, es => es = []
  | .conditional next, es => stop ≠ some next ∧ next ∉ path ∧ (∃ ids, (g.node next).kind = .conditional ids) →
      Unfolds g (.into next) first stop path es
  | .stray _ _, _ => False
  | .unrecognized _, _ => False

/-- A run and what its end leaves unfold what follows a node. -/
theorem unfolds_of_run {first stop : Option (Fin g.size)} {path : List (Fin g.size)} {v : Fin g.size} {rest : List Element}
    (h : Ends g first stop ((g.run stop path v).1.reverse ++ path) (g.run stop path v).2 rest) :
    Unfolds g (.after v) first stop path ((g.run stop path v).1.map g.stepOn ++ rest) := by
  induction path, v using Graph.run.induct g stop with
  | case1 path v hs =>
    rw [Graph.run, hs] at h ⊢
    obtain rfl : rest = [] := h
    exact .ends hs
  | case2 path v w hs hstop =>
    rw [Graph.run, hs] at h ⊢
    simp only [if_pos hstop] at h ⊢
    obtain rfl : rest = [] := h
    exact .follows hs (hstop ▸ .halted)
  | case3 path v w hs hstop hpath =>
    rw [Graph.run, hs] at h ⊢
    simp only [if_neg hstop, if_pos hpath] at h ⊢
    obtain rfl : rest = [] := h
    exact .follows hs (.looped (List.contains_iff_mem.1 hpath))
  | case4 path v w hs hstop hpath hk others ending hrun ih =>
    rw [Graph.run, hs] at h ⊢
    simp only [if_neg hstop, if_neg hpath, hk, hrun] at h ih ⊢
    rw [List.reverse_cons, List.append_assoc] at h
    exact .follows hs (.step hstop (fun hm => hpath (List.contains_iff_mem.2 hm)) hk (ih h))
  | case5 path v w hs hstop hpath ids hk =>
    rw [Graph.run, hs] at h ⊢
    simp only [if_neg hstop, if_neg hpath, hk] at h ⊢
    exact .follows hs (h ⟨hstop, fun hm => hpath (List.contains_iff_mem.2 hm), ids, hk⟩)
  | case6 path v w hs hstop hpath parent condition hk =>
    rw [Graph.run, hs] at h
    simp only [if_neg hstop, if_neg hpath, hk] at h
    exact h.elim
  | case7 path v w hs hstop hpath hk =>
    rw [Graph.run, hs] at h
    simp only [if_neg hstop, if_neg hpath, hk] at h
    exact h.elim
  | case8 path v hnil hone =>
    have hmany := one_lt_length_of_ne hnil hone
    rw [run_of_fork hmany] at h ⊢
    exact h hmany

/-- A sequence unfolds what follows its node: the steps of the run, and what its end leaves. -/
theorem sequence_returns (hc : s.chain = []) (hd : Sound deeper) {v : Fin g.size} {stop : Option (Fin g.size)}
    {scope : Scope g.size} {es : List Element} {p q : Progress} (h : (s.sequence deeper v stop scope).Returns p es q) :
    Unfolds g (.after v) scope.opened.head? stop scope.path es := by
  unfold sequence at h
  obtain ⟨first, r, hfirst, h⟩ := Build.returns_bind.1 h
  rw [steps_returns hc hfirst] at h
  have ended : ∃ rest, es = (g.run stop scope.path v).1.map g.stepOn ++ rest ∧
      Ends g scope.opened.head? stop ((g.run stop scope.path v).1.reverse ++ scope.path) (g.run stop scope.path v).2 rest := by
    cases hend : (g.run stop scope.path v).2 with
    | done =>
      simp only [hend] at h
      exact ⟨[], (Build.returns_pure.1 h).1, rfl⟩
    | fork start =>
      simp only [hend] at h
      obtain ⟨rest, r', hrest, h⟩ := Build.returns_bind.1 h
      exact ⟨rest, (Build.returns_pure.1 h).1, fun hmany => hd hrest hmany⟩
    | loop source target =>
      simp only [hend] at h
      obtain ⟨-, r', -, h⟩ := Build.returns_bind.1 h
      exact ⟨[], (Build.returns_pure.1 h).1, rfl⟩
    | conditional next =>
      simp only [hend] at h
      obtain ⟨rest, r', hrest, h⟩ := Build.returns_bind.1 h
      exact ⟨rest, (Build.returns_pure.1 h).1, fun hready => hd hrest hready⟩
    | stray next parent =>
      simp only [hend] at h
      obtain ⟨rest, r', hrest, -⟩ := Build.returns_bind.1 h
      exact absurd hrest Build.not_returns_throw
    | unrecognized next =>
      simp only [hend] at h
      obtain ⟨rest, r', hrest, -⟩ := Build.returns_bind.1 h
      exact absurd hrest Build.not_returns_throw
  obtain ⟨rest, rfl, hrest⟩ := ended
  exact unfolds_of_run hrest

/-- What continues a structure unfolds what stands behind it, by where the merge node is left to. -/
theorem continuation_returns (hc : s.chain = []) (hd : Sound deeper) {start : Fin g.size}
    {stop : Option (Fin g.size)} {scope : Scope g.size} {es : List Element} {p q : Progress}
    (h : (s.continuation deeper start stop scope).Returns p es q) :
    Unfolds g (.behind start) scope.opened.head? stop scope.path es := by
  unfold continuation at h
  rw [s.pairing_eq] at h
  cases hm : g.pairing.mergeOf.get start with
  | none =>
    simp only [hm] at h
    rw [(Build.returns_pure.1 h).1]
    exact .apart hm
  | some merge =>
    simp only [hm] at h
    by_cases hleft : 1 < (g.pairing.startsOf.get merge).length ∧ scope.opened.head? ≠ some start
    · rw [if_pos (by simpa using hleft)] at h
      obtain ⟨-, r, -, h⟩ := Build.returns_bind.1 h
      rw [(Build.returns_pure.1 h).1]
      exact .left hm hleft.1 hleft.2
    · rw [if_neg (by simpa using hleft)] at h
      refine .resumes hm (fun hshared => Decidable.byContradiction fun hfirst => hleft ⟨hshared, hfirst⟩) ?_
      by_cases hstop : stop = some merge
      · rw [if_pos hstop] at h
        rw [(Build.returns_pure.1 h).1, hstop]
        exact .halted
      · rw [if_neg hstop] at h
        by_cases hpath : scope.path.contains merge = true
        · rw [if_pos hpath] at h
          obtain ⟨-, r, -, h⟩ := Build.returns_bind.1 h
          rw [(Build.returns_pure.1 h).1]
          exact .looped (List.contains_iff_mem.1 hpath)
        · rw [if_neg hpath] at h
          exact unfoldFrom_returns hc hd hstop (fun hm => hpath (List.contains_iff_mem.2 hm)) h

/-! ## Choices and parallel elements -/

/-- Bodies of a choice unfold what follows their branches, by induction on the list of them. -/
theorem armBodies_returns (hd : Sound deeper) {conditional : Fin g.size} {scope : Scope g.size}
    {branches : List (Fin g.size)} {named : List (String × Option String × List Element)} {p q : Progress}
    (h : (s.armBodies deeper conditional scope branches).Returns p named q) :
    ∃ bodies : List (ArmBody g.size), bodies.map ArmBody.branch = branches ∧ named = bodies.map (ArmBody.named g) ∧
      ∀ b ∈ bodies, (∃ parent, (g.node b.branch).kind = .branch parent b.condition) ∧
        Unfolds g (.after b.branch) scope.opened.head? (g.pairing.mergeOf.get conditional) scope.path b.body := by
  induction branches generalizing named p q with
  | nil => exact ⟨[], rfl, (Build.returns_pure.1 h).1, by simp⟩
  | cons branch rest ih =>
    unfold armBodies at h
    split at h
    · rename_i parent condition hk
      obtain ⟨body, r, hbody, h⟩ := Build.returns_bind.1 h
      obtain ⟨others, r', hothers, h⟩ := Build.returns_bind.1 h
      obtain ⟨rfl, -⟩ := Build.returns_pure.1 h
      obtain ⟨bodies, rfl, rfl, hbodies⟩ := ih hothers
      refine ⟨⟨branch, condition, body⟩ :: bodies, rfl, rfl, List.forall_mem_cons.2 ⟨⟨⟨parent, hk⟩, ?_⟩, hbodies⟩⟩
      exact s.pairing_eq ▸ hd hbody trivial
    · exact absurd h Build.not_returns_throw

/-- A lane unfolds its successor, up to the merge node of the fan-out. -/
theorem laneBody_returns (hc : s.chain = []) (hd : Sound deeper) {start v : Fin g.size}
    {scope : Scope g.size} {es : List Element} {p q : Progress} (h : (s.laneBody deeper start scope v).Returns p es q) :
    Unfolds g (.into v) scope.opened.head? (g.pairing.mergeOf.get start) scope.path es := by
  unfold laneBody at h
  rw [s.pairing_eq] at h
  by_cases hstop : g.pairing.mergeOf.get start = some v
  · rw [if_pos hstop] at h
    rw [(Build.returns_pure.1 h).1, hstop]
    exact .halted
  · rw [if_neg hstop] at h
    by_cases hpath : scope.path.contains v = true
    · rw [if_pos hpath] at h
      obtain ⟨-, r, -, h⟩ := Build.returns_bind.1 h
      rw [(Build.returns_pure.1 h).1]
      exact .looped (List.contains_iff_mem.1 hpath)
    · rw [if_neg hpath] at h
      exact unfoldFrom_returns hc hd hstop (fun hm => hpath (List.contains_iff_mem.2 hm)) h

/-- Lanes unfold the successors one by one, by induction on the list of them. -/
theorem lanes_returns (hc : s.chain = []) (hd : Sound deeper) {id : String} {start : Fin g.size}
    {scope : Scope g.size} {index : Nat} {successors : List (Fin g.size)} {lanes : List (Lane Element)} {p q : Progress}
    (h : (s.lanes deeper id start scope index successors).Returns p lanes q) :
    ∃ bodies : List (LaneBody g.size), bodies.map LaneBody.successor = successors ∧ lanes = LaneBody.lanes id index bodies ∧
      ∀ b ∈ bodies,
        Unfolds g (.into b.successor) scope.opened.head? (g.pairing.mergeOf.get start) scope.path b.body := by
  induction successors generalizing lanes index p q with
  | nil => exact ⟨[], rfl, (Build.returns_pure.1 h).1, by simp⟩
  | cons v rest ih =>
    obtain ⟨body, r, hbody, h⟩ := Build.returns_bind.1 h
    obtain ⟨others, r', hothers, h⟩ := Build.returns_bind.1 h
    obtain ⟨rfl, -⟩ := Build.returns_pure.1 h
    obtain ⟨bodies, rfl, rfl, hbodies⟩ := ih hothers
    exact ⟨⟨v, body⟩ :: bodies, rfl, rfl, List.forall_mem_cons.2 ⟨laneBody_returns hc hd hbody, hbodies⟩⟩

/-- The outermost open branch start, once another one is opened. -/
theorem head?_openAt (scope : Scope g.size) (v : Fin g.size) :
    (scope.openAt v).opened.head? = scope.opened.head?.or (some v) := by
  unfold Scope.openAt
  rw [List.head?_append]
  rfl

/-- A choice unfolds its node, as a place that a link leads to. -/
theorem choice_returns (hc : s.chain = []) (hd : Sound deeper) {v : Fin g.size}
    {stop : Option (Fin g.size)} {scope : Scope g.size} {es : List Element} {p q : Progress}
    (hready : Ready (.choice v) stop scope) (hs : g.successorsAt v ≠ [])
    (h : (s.choice deeper v stop scope).Returns p es q) :
    Unfolds g (.into v) scope.opened.head? stop scope.path es := by
  obtain ⟨hstop, hpath, ids, hk⟩ := hready
  obtain ⟨id, r₁, -, h⟩ := Build.returns_bind.1 h
  obtain ⟨named, r₂, hnamed, h⟩ := Build.returns_bind.1 h
  obtain ⟨-, r₃, -, h⟩ := Build.returns_bind.1 h
  obtain ⟨element, r₄, helement, h⟩ := Build.returns_bind.1 h
  obtain ⟨rest, r₅, hrest, h⟩ := Build.returns_bind.1 h
  obtain ⟨rfl, -⟩ := Build.returns_pure.1 h
  obtain ⟨bodies, hbranches, rfl, hbodies⟩ := armBodies_returns hd hnamed
  have hcontinued := continuation_returns hc hd hrest
  rw [submit_returns hc helement]
  simp only [Scope.enter, head?_openAt] at hbodies hcontinued
  exact .choice hstop hpath hk hs hbranches (fun b hb => (hbodies b hb).1) (fun b hb => (hbodies b hb).2) hcontinued

/-- A parallel element unfolds what follows the fan-out, whose own step stands before it. -/
theorem fork_returns (hc : s.chain = []) (hd : Sound deeper) {v : Fin g.size}
    {stop : Option (Fin g.size)} {scope : Scope g.size} {es : List Element} {p q : Progress}
    (hmany : 1 < (g.successorsAt v).length) (h : (s.fork deeper v stop scope).Returns p es q) :
    Unfolds g (.after v) scope.opened.head? stop scope.path es := by
  obtain ⟨id, r₁, -, h⟩ := Build.returns_bind.1 h
  obtain ⟨lanes, r₂, hlanes, h⟩ := Build.returns_bind.1 h
  obtain ⟨-, r₃, -, h⟩ := Build.returns_bind.1 h
  obtain ⟨element, r₄, helement, h⟩ := Build.returns_bind.1 h
  obtain ⟨rest, r₅, hrest, h⟩ := Build.returns_bind.1 h
  obtain ⟨rfl, -⟩ := Build.returns_pure.1 h
  obtain ⟨bodies, hsuccessors, rfl, hbodies⟩ := lanes_returns hc hd hlanes
  have hcontinued := continuation_returns hc hd hrest
  rw [submit_returns hc helement]
  simp only [head?_openAt] at hbodies hcontinued
  exact .fork hmany hsuccessors hbodies hcontinued

/-! ## Whole compilations -/

/-- Whatever a compilation without interceptors returns for a segment unfolds the graph. -/
theorem unfold_unfolds (hc : s.chain = []) (depth : Nat) : Sound (s.unfold depth) := by
  induction depth with
  | zero =>
    intro segment stop scope p es q h
    unfold unfold at h
    split at h
    · exact absurd h Build.not_returns_throw
    · exact absurd h Build.not_returns_throw
  | succ depth ih =>
    intro segment stop scope p es q h hready
    unfold unfold at h
    split at h
    · exact absurd h Build.not_returns_throw
    · rename_i hbare
      cases segment with
      | after v => exact sequence_returns hc ih h
      | choice v => exact choice_returns hc ih hready (by simpa [isBareChoice] using hbare) h
      | fork v => exact fork_returns hc ih hready h

/-- A plan unfolds its entry, with nothing open, nowhere to stop and no path. -/
theorem unfoldEntry_returns (hc : s.chain = []) {entry : Fin g.size} {es : List Element}
    {p q : Progress} (h : (s.unfoldEntry entry).Returns p es q) : Unfolds g (.into entry) none none [] es := by
  have hd : Sound (s.unfold s.maxDepth) := unfold_unfolds hc s.maxDepth
  unfold unfoldEntry at h
  split at h
  · rename_i ids hk
    exact hd h ⟨by simp, by simp, ids, hk⟩
  · rename_i hk
    obtain ⟨first, r, hfirst, h⟩ := Build.returns_bind.1 h
    obtain ⟨rest, r', hrest, h⟩ := Build.returns_bind.1 h
    obtain ⟨rfl, -⟩ := Build.returns_pure.1 h
    rw [step_returns hc hfirst]
    exact .step (by simp) (by simp) hk (hd hrest trivial)
  · exact absurd h Build.not_returns_throw

end Setting

/-- A flow is compiled as the graph that indexes it. -/
theorem Compiler.compile_of_index {c : Compiler} {f : Flow} {g : Graph} (hg : c.index f = .ok g) :
    c.compile f = c.compileGraph f.id g := by
  unfold Compiler.compile
  rw [hg]
  rfl

/-- A plan of a flow is one of the graph that indexes it. -/
theorem Compiler.compileGraph_of_compile {c : Compiler} {f : Flow} {g : Graph} (hg : c.index f = .ok g) {route : Route}
    (h : c.compile f = .ok route) : c.compileGraph f.id g = .ok route :=
  compile_of_index hg ▸ h

/-- A plan of a graph, compiled without interceptors, is what is returned at its entry, from counters at zero. -/
theorem Compiler.returns_of_compileGraph {c : Compiler} (hc : c.chain = []) {flowId : String} {g : Graph} {route : Route}
    (h : c.compileGraph flowId g = .ok route) :
    ∃ entry p q, g.entry = .ok entry ∧ p.nextId = 0 ∧ ((c.setting flowId g).unfoldEntry entry).Returns p route.steps q := by
  obtain ⟨q, hplan⟩ : ∃ q, (c.setting flowId g).plan.Returns {} route q := by
    unfold Compiler.compileGraph Compiler.compilation at h
    rcases hrun : (c.setting flowId g).plan.run.run {} with ⟨outcome, q⟩
    simp only [hrun] at h
    exact ⟨q, by rw [Build.Returns, hrun, h]⟩
  obtain ⟨entry, r, hentry, hplan⟩ := Build.returns_bind.1 hplan
  obtain ⟨_, r₁, htold, hplan⟩ := Build.returns_bind.1 hplan
  obtain ⟨steps, r₂, hsteps, hplan⟩ := Build.returns_bind.1 hplan
  obtain ⟨-, r₃, -, hplan⟩ := Build.returns_bind.1 hplan
  have hroute : route = ⟨flowId, steps⟩ := by
    rw [(Build.returns_pure.1 hplan).1, show (c.setting flowId g).chain = [] from hc]
    rfl
  have hstart : g.entry = .ok entry ∧ r = {} := by
    cases he : g.entry with
    | error e =>
      rw [he] at hentry
      cases hentry
    | ok v =>
      rw [he] at hentry
      cases hentry
      exact ⟨rfl, rfl⟩
  obtain ⟨he, rfl⟩ := hstart
  refine ⟨entry, r₁, r₂, he, ?_, hroute ▸ hsteps⟩
  cases htold
  rfl

/-- A plan of a graph, compiled without interceptors, is what is returned at its entry. -/
theorem Compiler.unfoldEntry_of_compileGraph {c : Compiler} (hc : c.chain = []) {flowId : String} {g : Graph} {route : Route}
    (h : c.compileGraph flowId g = .ok route) :
    ∃ entry p q, g.entry = .ok entry ∧ ((c.setting flowId g).unfoldEntry entry).Returns p route.steps q := by
  obtain ⟨entry, p, q, hentry, -, hsteps⟩ := returns_of_compileGraph hc h
  exact ⟨entry, p, q, hentry, hsteps⟩

/-- A plan of a graph, compiled without interceptors, unfolds the graph from its entry. -/
theorem Compiler.unfolds_of_compileGraph {c : Compiler} (hc : c.chain = []) {flowId : String} {g : Graph} {route : Route}
    (h : c.compileGraph flowId g = .ok route) :
    ∃ entry, g.entry = .ok entry ∧ Unfolds g (.into entry) none none [] route.steps := by
  obtain ⟨entry, p, q, hentry, hsteps⟩ := unfoldEntry_of_compileGraph hc h
  exact ⟨entry, hentry, Setting.unfoldEntry_returns hc hsteps⟩

end FlowPlan
