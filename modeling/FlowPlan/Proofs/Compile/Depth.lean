import FlowPlan.Proofs.Compile.Emission
import FlowPlan.Proofs.Compile.Frames
import FlowPlan.Proofs.Nesting

/-!
# The depth that a plan takes

A plan tells by itself how much depth its compilation takes (`Route.depth`). No compilation with less returns it
(`Setting.shallow_unfold`), and with that much none runs out of depth (`Unfolds.suffices`). What is unfolded behind a
choice or parallel element stands below it, so plans with several in a row take more depth than their nesting asks for
(`depth_of_compile`, `rounds_too_deep`).
-/

namespace FlowPlan

open FlowPlan.Graph

variable {g : Graph}

/-! ## Levels of what is unfolded -/

namespace Element

/-- A level more suffices if the others suffice for the bodies and for what follows. -/
theorem below_push_le_iff {levels : List Nat} {rest : Descent} {n : Nat} :
    (Descent.push levels rest).below ≤ n + 1 ↔ (∀ l ∈ levels, l ≤ n) ∧ rest.total ≤ n := by
  rw [← most_le_iff, ← Nat.max_le, Nat.add_comm n 1]
  exact Nat.add_le_add_iff_left

/-- The bodies of a choice take a level more than what they hold, as a branch node has no element. -/
theorem below_choice_le_iff {id : String} {node : Step} {arms : List (Arm Element)} {otherwise : Option (List Element)}
    {rest : List Element} {n : Nat} : (descent.ofBody (.choice id node arms otherwise :: rest)).below ≤ n + 1 ↔
      (∀ body ∈ bodiesOf arms otherwise, (descent.ofBody body).below + 1 ≤ n) ∧ (descent.ofBody rest).total ≤ n := by
  rw [Fold.ofBody_choice, descent, below_push_le_iff]
  simp [Nat.add_comm]

/-- The lanes of a parallel element take no level of their own. -/
theorem below_parallel_le_iff {id : String} {lanes : List (Lane Element)} {rest : List Element} {n : Nat} :
    (descent.ofBody (.parallel id lanes :: rest)).below ≤ n + 1 ↔
      (∀ body ∈ lanes.map (·.body), (descent.ofBody body).total ≤ n) ∧ (descent.ofBody rest).total ≤ n := by
  rw [Fold.ofBody_parallel, descent, below_push_le_iff]
  simp

/-- A choice takes a level itself. -/
theorem below_choice_pos {id : String} {node : Step} {arms : List (Arm Element)} {otherwise : Option (List Element)}
    {rest : List Element} : 0 < (descent.ofBody (.choice id node arms otherwise :: rest)).below := by
  rw [Fold.ofBody_choice]
  exact Nat.add_pos_left Nat.one_pos _

theorem below_parallel_pos {id : String} {lanes : List (Lane Element)} {rest : List Element} :
    0 < (descent.ofBody (.parallel id lanes :: rest)).below := by
  rw [Fold.ofBody_parallel]
  exact Nat.add_pos_left Nat.one_pos _

/-- A choice in front is counted below already. -/
theorem lead_choice {id : String} {node : Step} {arms : List (Arm Element)} {otherwise : Option (List Element)}
    {rest : List Element} : (descent.ofBody (.choice id node arms otherwise :: rest)).lead = 0 := by
  rw [Fold.ofBody_choice]
  rfl

theorem lead_parallel {id : String} {lanes : List (Lane Element)} {rest : List Element} :
    (descent.ofBody (.parallel id lanes :: rest)).lead = 0 := by
  rw [Fold.ofBody_parallel]
  rfl

end Element

/-- A step is on the level of what follows it. -/
@[simp] theorem descent_stepOn (v : Fin g.size) (rest : List Element) :
    Element.descent.ofBody (g.stepOn v :: rest) = ⟨1, (Element.descent.ofBody rest).below⟩ := by
  unfold Graph.stepOn
  split <;> rfl

/-! ## Enough depth -/

namespace Frame.Calls

variable {v w : Fin g.size} {stop : Option (Fin g.size)} {scope : Scope g.size} {f : Frame g.size}

/-- Behind a node without successors nothing is called for. -/
theorem not_of_end (hs : g.successorsAt v = []) : ¬ Calls g ⟨.after v, stop, scope⟩ f := by
  rintro ⟨hend⟩
  have hrun : g.run stop scope.path v = ([], .done) := by rw [Graph.run, hs]
  rw [hrun] at hend
  cases hend

/-- A sequence that goes on with one node calls for the choice on it, or for what the sequence behind it calls for. -/
theorem of_single (hs : g.successorsAt v = [w]) (h : Calls g ⟨.after v, stop, scope⟩ f) : stop ≠ some w ∧ w ∉ scope.path ∧
    ((g.node w).kind = .plain ∧ Calls g ⟨.after w, stop, scope.enter w⟩ f ∨
      (∃ ids, (g.node w).kind = .conditional ids) ∧ f = ⟨.choice w, stop, scope⟩) := by
  obtain ⟨hend⟩ := h
  rw [Graph.run, hs] at hend ⊢
  by_cases hstop : stop = some w
  · simp only [if_pos hstop] at hend
    cases hend
  · by_cases hpath : scope.path.contains w
    · simp only [if_neg hstop, if_pos hpath] at hend
      cases hend
    · simp only [if_neg hstop, if_neg hpath] at hend ⊢
      refine ⟨hstop, fun hm => hpath (List.contains_iff_mem.2 hm), ?_⟩
      cases hk : (g.node w).kind with
      | plain =>
        simp only [hk] at hend ⊢
        refine Or.inl ⟨trivial, ?_⟩
        rw [Scope.enterAll_cons]
        exact .sequence hend
      | conditional ids =>
        simp only [hk] at hend ⊢
        cases hend
        exact Or.inr ⟨⟨ids, rfl⟩, rfl⟩
      | _ =>
        simp only [hk] at hend
        cases hend

/-- A sequence behind a fan-out calls for the parallel element there. -/
theorem of_fork (hs : 1 < (g.successorsAt v).length) (h : Calls g ⟨.after v, stop, scope⟩ f) : f = ⟨.fork v, stop, scope⟩ := by
  obtain ⟨hend⟩ := h
  rw [Graph.run_of_fork hs] at hend ⊢
  cases hend
  rfl

end Frame.Calls

namespace Setting

variable {s : Setting g}

/-- The levels that a sequence takes are enough for whatever is unfolded at its place. -/
def Suffices (s : Setting g) : Place g.size → Option (Fin g.size) → Scope g.size → List Element → Prop
  | .into v, stop, scope, es => stop ≠ some v → v ∉ scope.path →
      ((g.node v).kind = .plain → (Element.descent.ofBody es).lead = 1 ∧
        ∀ f, Frame.Calls g ⟨.after v, stop, scope.enter v⟩ f → s.EndsWithin (Element.descent.ofBody es).below f) ∧
      ∀ ids, (g.node v).kind = .conditional ids → s.EndsWithin (Element.descent.ofBody es).below ⟨.choice v, stop, scope⟩
  | .after v, stop, scope, es =>
      ∀ f, Frame.Calls g ⟨.after v, stop, scope⟩ f → s.EndsWithin (Element.descent.ofBody es).below f
  | .behind v, stop, scope, es =>
      ∀ f, Frame.Continues g v stop scope f → s.EndsWithin (Element.descent.ofBody es).total f

/-- Where a node is met, all levels of the sequence from there on are enough. -/
theorem Suffices.begins {v : Fin g.size} {stop : Option (Fin g.size)} {scope : Scope g.size}
    {es : List Element} (h : s.Suffices (.into v) stop scope es) (hstop : stop ≠ some v) (hpath : v ∉ scope.path)
    {f : Frame g.size} (hf : Frame.Begins g stop scope v f) : s.EndsWithin (Element.descent.ofBody es).total f := by
  obtain ⟨hplain, hconditional⟩ := h hstop hpath
  cases hf with
  | plain hk =>
    obtain ⟨hlead, hcalls⟩ := hplain hk
    rw [Element.Descent.total, hlead, Nat.add_comm]
    exact .of_calls hcalls
  | conditional hk => exact (hconditional _ hk).mono (Nat.le_add_left ..)

end Setting

variable {catalog : NodeCatalog} {nodes : List Flow.Node} {edges : List Flow.Edge}

namespace Setting.Suffices

variable {s : Setting g} {v w : Fin g.size} {stop : Option (Fin g.size)} {scope : Scope g.size} {es rest : List Element}

/-- A step is a level of its own. -/
theorem step (hk : (g.node v).kind = .plain) (h : s.Suffices (.after v) stop (scope.enter v) rest) :
    s.Suffices (.into v) stop scope (g.stepOn v :: rest) := by
  intro _ _
  rw [descent_stepOn]
  refine ⟨fun _ => ⟨rfl, h⟩, fun ids hk' => ?_⟩
  rw [hk] at hk'
  cases hk'

/-- A choice takes one level more than what it calls for. -/
theorem choiceOn (hg : Indexes catalog nodes edges g) {ids : List String} {id : String} {bodies : List (ArmBody g.size)}
    (hk : (g.node v).kind = .conditional ids) (hbranches : bodies.map ArmBody.branch = g.successorsAt v)
    (hkinds : ∀ b ∈ bodies, ∃ parent, (g.node b.branch).kind = .branch parent b.condition)
    (hbodies : ∀ b ∈ bodies, s.Suffices (.after b.branch) (g.pairing.mergeOf.get v) ((scope.openAt v).enter v) b.body)
    (hrest : s.Suffices (.behind v) stop ((scope.openAt v).enter v) rest) :
    s.Suffices (.into v) stop scope (g.choiceOn id v bodies :: rest) := by
  refine fun _ _ => ⟨fun hk' => ?_, fun _ _ => ?_⟩
  · rw [hk] at hk'
    cases hk'
  · obtain ⟨n, hn⟩ : ∃ n, (Element.descent.ofBody (g.choiceOn id v bodies :: rest)).below = n + 1 :=
      Nat.exists_eq_add_one.2 Element.below_choice_pos
    obtain ⟨hinside, hbehind⟩ := Element.below_choice_le_iff.1 (Nat.le_of_eq hn)
    rw [hn]
    refine .of_calls fun f hcalls => ?_
    cases hcalls with
    | arm hb _ =>
      rw [← hbranches] at hb
      obtain ⟨b, hmem, rfl⟩ := List.mem_map.1 hb
      have hle := hinside b.body ((hg.mem_bodiesOf hk hbranches hkinds).2 ⟨b, hmem, rfl⟩)
      exact .mono (.of_calls (hbodies b hmem)) hle
    | behindChoice hcontinues => exact (hrest f hcontinues).mono hbehind

/-- A run takes its nodes without a call, so what the node behind calls for is called from here. -/
theorem follows (h : s.Suffices (.into w) stop scope es) (hs : g.successorsAt v = [w]) : s.Suffices (.after v) stop scope es := by
  intro f hcalls
  obtain ⟨hstop, hnot, ⟨hk, hcalls⟩ | ⟨⟨ids, hk⟩, rfl⟩⟩ := hcalls.of_single hs
  · exact ((h hstop hnot).1 hk).2 f hcalls
  · exact (h hstop hnot).2 ids hk

/-- A parallel element takes one level more than what it calls for. -/
theorem fork {id : String} {lanes : List (LaneBody g.size)} (hmany : 1 < (g.successorsAt v).length)
    (hsuccessors : lanes.map LaneBody.successor = g.successorsAt v)
    (hlanes : ∀ l ∈ lanes, s.Suffices (.into l.successor) (g.pairing.mergeOf.get v) (scope.openAt v) l.body)
    (hrest : s.Suffices (.behind v) stop (scope.openAt v) rest) :
    s.Suffices (.after v) stop scope (.parallel id (LaneBody.lanes id 0 lanes) :: rest) := by
  intro f hcalls
  obtain ⟨n, hn⟩ : ∃ n, (Element.descent.ofBody (.parallel id (LaneBody.lanes id 0 lanes) :: rest)).below = n + 1 :=
    Nat.exists_eq_add_one.2 Element.below_parallel_pos
  obtain ⟨hinside, hbehind⟩ := Element.below_parallel_le_iff.1 (Nat.le_of_eq hn)
  rw [Element.map_body_lanes] at hinside
  rw [hcalls.of_fork hmany, hn]
  refine .of_calls fun f hcalls => ?_
  cases hcalls with
  | lane hw hmerge hnot hbegins =>
    rw [← hsuccessors] at hw
    obtain ⟨l, hl, rfl⟩ := List.mem_map.1 hw
    exact ((hlanes l hl).begins hmerge hnot hbegins).mono (hinside l.body (List.mem_map_of_mem hl))
  | behindFork hcontinues => exact (hrest f hcontinues).mono hbehind

end Setting.Suffices

/-- Whatever is unfolded at a place ends within the levels that it takes. -/
theorem Unfolds.suffices (hg : Indexes catalog nodes edges g) {s : Setting g} {place : Place g.size}
    {first stop : Option (Fin g.size)} {path : List (Fin g.size)} {es : List Element}
    (h : Unfolds g place first stop path es) (scope : Scope g.size) (hfirst : scope.opened.head? = first)
    (hpath : scope.path = path) : s.Suffices place stop scope es := by
  induction h generalizing scope with
  | halted => exact fun hstop => absurd rfl hstop
  | looped hm => exact fun _ hnot => absurd (hpath ▸ hm) hnot
  | step _ _ hk _ ih => exact .step hk (ih (scope.enter _) hfirst (congrArg _ hpath))
  | @choice v first stop path ids id bodies rest _ _ hk _ hbranches hkinds _ _ ihbodies ihrest =>
    have hinner : ((scope.openAt v).enter v).opened.head? = first.or (some v) := hfirst ▸ Setting.head?_openAt scope v
    exact .choiceOn hg hk hbranches hkinds (fun b hb => ihbodies b hb _ hinner (congrArg (v :: ·) hpath))
      (ihrest _ hinner (congrArg (v :: ·) hpath))
  | ends hs => exact fun f hcalls => absurd hcalls (Frame.Calls.not_of_end hs)
  | follows hs _ ih => exact (ih scope hfirst hpath).follows hs
  | @fork v first stop path id lanes rest hmany hsuccessors _ _ ihlanes ihrest =>
    have hinner : (scope.openAt v).opened.head? = first.or (some v) := hfirst ▸ Setting.head?_openAt scope v
    exact .fork hmany hsuccessors (fun l hl => ihlanes l hl _ hinner hpath) (ihrest _ hinner hpath)
  | apart hm =>
    rintro f ⟨hm', -⟩
    rw [hm] at hm'
    cases hm'
  | left hm hshared hne =>
    rintro f ⟨hm', hopen, -⟩
    rw [hm] at hm'
    cases hm'
    exact absurd (hfirst ▸ hopen hshared) hne
  | resumes hm _ _ ih =>
    rintro f ⟨hm', -, hstop, hnot, hbegins⟩
    rw [hm] at hm'
    cases hm'
    exact (ih scope hfirst hpath).begins hstop hnot hbegins

/-! ## No less depth -/

/-- A row of steps stands on one level. -/
theorem below_map_stepOn (vs : List (Fin g.size)) (rest : List Element) :
    (Element.descent.ofBody (vs.map g.stepOn ++ rest)).below = (Element.descent.ofBody rest).below := by
  induction vs with
  | nil => rfl
  | cons v vs ih => rw [List.map_cons, List.cons_append, descent_stepOn, ih]

namespace Setting

/-- The bodies of a choice are among those of its branches. -/
theorem exists_mem_of_mem_bodiesOf {bodies : List (String × Option String × List Element)} {body : List Element}
    (h : body ∈ Element.bodiesOf (armsOf bodies) (otherwiseOf bodies)) : ∃ b ∈ bodies, b.2.2 = body := by
  rcases List.mem_append.1 h with h | h
  · obtain ⟨a, ha, rfl⟩ := List.mem_map.1 h
    exact ⟨_, mem_armsOf.1 ha, rfl⟩
  · rw [Option.mem_toList, otherwiseOf_eq] at h
    obtain ⟨b, hb, rfl⟩ := List.mem_map.1 (List.mem_of_getLast? h)
    exact ⟨b, (List.mem_filter.1 hb).1, rfl⟩

/-- The levels that a segment takes with what it comes to. -/
def levels : Segment g.size → List Element → Nat
  | .after _, es => (Element.descent.ofBody es).below + 1
  | .choice _, es => (Element.descent.ofBody es).total
  | .fork _, es => (Element.descent.ofBody es).total

variable {s : Setting g} {deeper : Unfolder g} {n : Nat}

/-- An unfolder returns nothing that takes more than `n` levels. -/
def Shallow (n : Nat) (deeper : Unfolder g) : Prop :=
  ∀ segment stop scope, (deeper segment stop scope).Ensures fun es => levels segment es ≤ n

/-- What begins at a node takes the levels of what its unfolder returns. -/
theorem unfoldFrom_ensures (hc : s.chain = []) (hd : Shallow n deeper) {stray : String → Obstacle} {stop : Option (Fin g.size)}
    {scope : Scope g.size} {v : Fin g.size} :
    (s.unfoldFrom deeper stray stop scope v).Ensures fun es => (Element.descent.ofBody es).total ≤ n := by
  unfold unfoldFrom
  split
  · refine Build.ensures_bind (fun _ _ _ => step_returns hc) ?_
    rintro _ rfl
    refine Build.ensures_bind (hd (.after v) stop _) fun rest hrest => Build.ensures_pure ?_
    rw [descent_stepOn, Element.Descent.total, Nat.add_comm]
    exact hrest
  · exact hd (.choice v) stop scope
  · exact Build.ensures_throw
  · exact Build.ensures_throw

/-- A sequence takes the levels of what stands at the end of its run, and its steps none. -/
theorem sequence_ensures (hc : s.chain = []) (hd : Shallow n deeper) {v : Fin g.size} {stop : Option (Fin g.size)}
    {scope : Scope g.size} :
    (s.sequence deeper v stop scope).Ensures fun es => (Element.descent.ofBody es).below ≤ n := by
  have called : ∀ segment scope, (deeper segment stop scope).Ensures fun es => (Element.descent.ofBody es).below ≤ n := by
    intro segment scope p es q h
    have := hd segment stop scope p es q h
    cases segment <;> simp only [levels, Element.Descent.total] at this <;> omega
  have ended : ∀ scope ending, (atEnd deeper stop scope ending).Ensures fun es => (Element.descent.ofBody es).below ≤ n := by
    intro scope ending
    cases ending with
    | done => exact Build.ensures_pure (Nat.zero_le n)
    | fork start => exact called (.fork start) scope
    | loop source target => exact Build.ensures_of_bind fun _ => Build.ensures_pure (Nat.zero_le n)
    | conditional next => exact called (.choice next) scope
    | stray next parent => exact Build.ensures_throw
    | unrecognized next => exact Build.ensures_throw
  rw [sequence_eq]
  refine Build.ensures_bind (fun _ _ _ => steps_returns hc) ?_
  rintro _ rfl
  refine Build.ensures_bind (ended _ _) fun rest hrest => Build.ensures_pure ?_
  rw [below_map_stepOn]
  exact hrest

/-- What continues a structure takes the levels of what begins at the merge node. -/
theorem continuation_ensures (hc : s.chain = []) (hd : Shallow n deeper) {start : Fin g.size} {stop : Option (Fin g.size)}
    {scope : Scope g.size} :
    (s.continuation deeper start stop scope).Ensures fun es => (Element.descent.ofBody es).total ≤ n := by
  unfold continuation
  split
  · exact Build.ensures_pure (Nat.zero_le n)
  · simp only
    split
    · exact Build.ensures_of_bind fun _ => Build.ensures_pure (Nat.zero_le n)
    · split
      · exact Build.ensures_pure (Nat.zero_le n)
      · split
        · exact Build.ensures_of_bind fun _ => Build.ensures_pure (Nat.zero_le n)
        · exact unfoldFrom_ensures hc hd

/-- Each body of a choice takes one level less than are left. -/
theorem armBodies_ensures (hd : Shallow n deeper) {conditional : Fin g.size} {scope : Scope g.size}
    {branches : List (Fin g.size)} : (s.armBodies deeper conditional scope branches).Ensures
      fun bodies => ∀ b ∈ bodies, (Element.descent.ofBody b.2.2).below + 1 ≤ n := by
  induction branches with
  | nil => exact Build.ensures_pure nofun
  | cons branch rest ih =>
    unfold armBodies
    split
    · refine Build.ensures_bind (hd (.after branch) _ scope) fun body hbody => ?_
      exact Build.ensures_bind ih fun others hothers => Build.ensures_pure (List.forall_mem_cons.2 ⟨hbody, hothers⟩)
    · exact Build.ensures_throw

/-- A choice takes one level more than its bodies and what continues it. -/
theorem choice_ensures (hc : s.chain = []) (hd : Shallow n deeper) {v : Fin g.size} {stop : Option (Fin g.size)}
    {scope : Scope g.size} :
    (s.choice deeper v stop scope).Ensures fun es => (Element.descent.ofBody es).total ≤ n + 1 := by
  refine Build.ensures_of_bind fun id => Build.ensures_bind (armBodies_ensures hd) fun bodies hbodies => ?_
  refine Build.ensures_of_bind fun _ => Build.ensures_bind (fun _ _ _ => submit_returns hc) ?_
  rintro _ rfl
  refine Build.ensures_bind (continuation_ensures hc hd) fun rest hrest => Build.ensures_pure ?_
  rw [Element.Descent.total, Element.lead_choice, Nat.zero_add, Element.below_choice_le_iff]
  refine ⟨fun body hb => ?_, hrest⟩
  obtain ⟨b, hmem, rfl⟩ := exists_mem_of_mem_bodiesOf hb
  exact hbodies b hmem

/-- A lane takes the levels of what begins in it. -/
theorem laneBody_ensures (hc : s.chain = []) (hd : Shallow n deeper) {start v : Fin g.size} {scope : Scope g.size} :
    (s.laneBody deeper start scope v).Ensures fun es => (Element.descent.ofBody es).total ≤ n := by
  unfold laneBody
  simp only
  split
  · exact Build.ensures_pure (Nat.zero_le n)
  · split
    · exact Build.ensures_of_bind fun _ => Build.ensures_pure (Nat.zero_le n)
    · exact unfoldFrom_ensures hc hd

/-- Each lane takes no more than the levels that are left. -/
theorem lanes_ensures (hc : s.chain = []) (hd : Shallow n deeper) {id : String} {start : Fin g.size} {scope : Scope g.size}
    {index : Nat} {successors : List (Fin g.size)} : (s.lanes deeper id start scope index successors).Ensures
      fun lanes => ∀ body ∈ lanes.map (·.body), (Element.descent.ofBody body).total ≤ n := by
  induction successors generalizing index with
  | nil => exact Build.ensures_pure nofun
  | cons v rest ih =>
    refine Build.ensures_bind (laneBody_ensures hc hd) fun body hbody => ?_
    exact Build.ensures_bind ih fun others hothers => Build.ensures_pure (List.forall_mem_cons.2 ⟨hbody, hothers⟩)

/-- A parallel element takes one level more than its lanes and what continues it. -/
theorem fork_ensures (hc : s.chain = []) (hd : Shallow n deeper) {v : Fin g.size} {stop : Option (Fin g.size)}
    {scope : Scope g.size} :
    (s.fork deeper v stop scope).Ensures fun es => (Element.descent.ofBody es).total ≤ n + 1 := by
  refine Build.ensures_of_bind fun id => Build.ensures_bind (lanes_ensures hc hd) fun lanes hlanes => ?_
  refine Build.ensures_of_bind fun _ => Build.ensures_bind (fun _ _ _ => submit_returns hc) ?_
  rintro _ rfl
  refine Build.ensures_bind (continuation_ensures hc hd) fun rest hrest => Build.ensures_pure ?_
  rw [Element.Descent.total, Element.lead_parallel, Nat.zero_add, Element.below_parallel_le_iff]
  exact ⟨hlanes, hrest⟩

/-- With so much depth left, nothing is returned that takes more. -/
theorem shallow_unfold (hc : s.chain = []) (depth : Nat) : Shallow depth (s.unfold depth) := by
  induction depth with
  | zero =>
    intro segment stop scope
    unfold unfold
    split <;> exact Build.ensures_throw
  | succ depth ih =>
    intro segment stop scope
    unfold unfold
    split
    · exact Build.ensures_throw
    · cases segment with
      | after v => exact fun p es q h => Nat.succ_le_succ (sequence_ensures hc ih p es q h)
      | choice v => exact choice_ensures hc ih
      | fork v => exact fork_ensures hc ih

/-- A plan takes no more levels than the depth allows. -/
theorem unfoldEntry_ensures (hc : s.chain = []) {entry : Fin g.size} :
    (s.unfoldEntry entry).Ensures fun es => (Element.descent.ofBody es).total ≤ s.maxDepth := by
  have hd := shallow_unfold hc s.maxDepth
  unfold unfoldEntry
  split
  · exact hd (.choice entry) none {}
  · refine Build.ensures_bind (fun _ _ _ => step_returns hc) ?_
    rintro _ rfl
    refine Build.ensures_bind (hd (.after entry) none _) fun rest hrest => Build.ensures_pure ?_
    rw [descent_stepOn, Element.Descent.total, Nat.add_comm]
    exact hrest
  · exact Build.ensures_throw

end Setting

/-! ## The depth of a plan -/

/-- The depth of a plan, compiled without interceptors, is what its compilation takes: none with less depth returns it, and with
so much or more none runs out of depth. When at most `k` choices and parallel elements stand in one sequence, and they are nested
`n` deep, that is at most `2 * k * n + 1`. -/
theorem depth_of_compile {c : Compiler} (hc : c.chain = []) {f : Flow} {route : Route} (hr : c.compile f = .ok route) :
    route.depth ≤ c.maxDepth ∧
      (∀ maxDepth, route.depth ≤ maxDepth → ∀ node depth,
        { c with maxDepth := maxDepth }.compile f ≠ .error (.graphTooDeep node depth)) ∧
      ∀ k n, route.row ≤ k → route.nesting ≤ n → route.depth ≤ 2 * (k * n) + 1 := by
  obtain ⟨g, hg⟩ : ∃ g, c.index f = .ok g := by
    unfold Compiler.compile at hr
    cases hg : c.index f with
    | error e =>
      rw [hg] at hr
      cases hr
    | ok g => exact ⟨g, rfl⟩
  have hgraph := Compiler.compileGraph_of_compile hg hr
  refine ⟨?_, fun maxDepth hdepth node depth => ?_, fun k n hk hn => Route.depth_le hn hk⟩
  · obtain ⟨entry, p, q, -, hsteps⟩ := Compiler.unfoldEntry_of_compileGraph hc hgraph
    exact Setting.unfoldEntry_ensures hc p route.steps q hsteps
  · obtain ⟨entry, hentry, hunfolds⟩ := Compiler.unfolds_of_compileGraph hc hgraph
    rw [Compiler.compile_of_index (c := { c with maxDepth := maxDepth }) hg]
    refine Compiler.compileGraph_ne_graphTooDeep (fun v start hv hstart => ?_) node depth
    rw [hentry] at hv
    cases hv
    have hsuffices := hunfolds.suffices (indexes_of_build hg)
      (s := Compiler.setting { c with maxDepth := maxDepth } f.id g) {} rfl rfl
    exact (hsuffices.begins nofun List.not_mem_nil hstart).mono hdepth

/-- Two fan-outs one after the other: A forks to B and C, which meet at D, and D forks to E and F, which meet at G. -/
def Flow.rounds : Flow where
  id := "rounds"
  nodes := ["A", "B", "C", "D", "E", "F", "G"].map fun id => { id := id, component := "script" }
  edges := [("A", "B"), ("A", "C"), ("B", "D"), ("C", "D"), ("D", "E"), ("D", "F"), ("E", "G"), ("F", "G")].map
    fun (source, target) => { source := source, target := target }

/-- The plan of `Flow.rounds` takes five levels: two for each fan-out, and one for the sequence of A. -/
theorem depth_of_compile_rounds : ∃ route, Compiler.compile {} Flow.rounds = .ok route ∧ route.depth = 5 ∧ route.row = 2 ∧
    ∀ maxDepth, 5 ≤ maxDepth → ∀ node depth,
      Compiler.compile { maxDepth := maxDepth } Flow.rounds ≠ .error (.graphTooDeep node depth) := by
  obtain ⟨route, hr, hdepth, hrow⟩ : ∃ route, Compiler.compile {} Flow.rounds = .ok route ∧ route.depth = 5 ∧ route.row = 2 := by
    decide +kernel
  obtain ⟨-, hends, -⟩ := depth_of_compile rfl hr
  exact ⟨route, hr, hdepth, hrow, fun maxDepth hle => hends maxDepth (hdepth ▸ hle)⟩

/-- With a depth of three, enough for one fan-out, the second one of `Flow.rounds` is too deep, though it is not nested in the
first. -/
theorem rounds_too_deep : ∃ route, Compiler.compile {} Flow.rounds = .ok route ∧ route.nesting = 1 ∧
    Compiler.compile { maxDepth := 2 * 1 + 1 } Flow.rounds = .error (.graphTooDeep "D" 3) := by
  obtain ⟨route, hr, hnesting⟩ : ∃ route, Compiler.compile {} Flow.rounds = .ok route ∧ route.nesting = 1 := by
    decide +kernel
  exact ⟨route, hr, hnesting, by decide +kernel⟩

end FlowPlan
