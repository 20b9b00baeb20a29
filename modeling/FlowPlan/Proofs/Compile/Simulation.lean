import FlowPlan.Proofs.Compile.Matching
import FlowPlan.Proofs.Compile.Unfolding
import FlowPlan.Proofs.Graph.Renumbering

/-!
# Compilations of graphs of one shape

Two compilations of graphs of one shape go the same way: they unfold the same nodes, give the same numbers and count the same
elements, and so they end with the same error or both with a plan (`Setting.plan_matches`). What their elements have to do with each
other depends on what differs, parameters, conditions or interceptors. It is left to a relation that goes along with putting a plan
together (`Setting.Relates`).
-/

namespace FlowPlan

open FlowPlan.Graph

/-- A segment under other numbers. -/
def Segment.map {n m : Nat} (r : Fin n → Fin m) : Segment n → Segment m
  | .after v => .after (r v)
  | .choice v => .choice (r v)
  | .fork v => .fork (r v)

/-- A scope under other numbers. -/
def Scope.map {n m : Nat} (r : Fin n → Fin m) (scope : Scope n) : Scope m :=
  ⟨scope.path.map r, scope.opened.map r⟩

namespace Setting

/-- What the interceptors of a setting do to an element. -/
def hook {g : Graph} (s : Setting g) : Element → Element :=
  s.chain.onStep s.flowId

/-- Without interceptors an element stays as it is. -/
theorem hook_eq_self {g : Graph} {s : Setting g} (hc : s.chain = []) (element : Element) : s.hook element = element := by
  rw [hook, hc]
  rfl

/-- Two settings that differ in their graphs and interceptors at most. -/
structure Kindred {g g' : Graph} (s : Setting g') (t : Setting g) : Prop where
  flowId : s.flowId = t.flowId
  maxDepth : s.maxDepth = t.maxDepth

/-- A relation between two sequences that gets the elements that go to the interceptors for the first one, too. -/
abbrev Relation := (submitted first second : List Element) → Prop

section Relates

variable {g g' : Graph} (R : Relation) (r : Fin g.size ≃ Fin g'.size)

/-- Bodies of two choices under the same branches, related one by one. -/
inductive ArmsRelated : List Element → List (ArmBody g'.size) → List (ArmBody g.size) → Prop
  | nil : ArmsRelated [] [] []
  | cons {branch parent condition' condition submitted body' body others bodies' bodies} :
      (g'.node (r branch)).kind = .branch parent condition' → (g.node branch).kind = .branch parent condition →
      condition'.isNone = condition.isNone → R submitted body' body → ArmsRelated others bodies' bodies →
      ArmsRelated (submitted ++ others) (⟨r branch, condition', body'⟩ :: bodies') (⟨branch, condition, body⟩ :: bodies)

/-- Bodies of two parallel elements for the same successors, related one by one. -/
inductive LanesRelated : List Element → List (LaneBody g'.size) → List (LaneBody g.size) → Prop
  | nil : LanesRelated [] [] []
  | cons {v submitted body' body others lanes' lanes} : R submitted body' body → LanesRelated others lanes' lanes →
      LanesRelated (submitted ++ others) (⟨r v, body'⟩ :: lanes') (⟨v, body⟩ :: lanes)

/-- The relation goes along with putting two plans together. -/
structure Relates (s : Setting g') (t : Setting g) : Prop where
  nil : R [] [] []
  append {l m es' es ds' ds} : R l es' es → R m ds' ds → R (l ++ m) (es' ++ ds') (es ++ ds)
  step (v : Fin g.size) : R [g'.stepOn (r v)] [s.hook (g'.stepOn (r v))] [t.hook (g.stepOn v)]
  choice (id : String) {v l bodies' bodies} : bodies.map ArmBody.branch = g.successorsAt v → ArmsRelated R r l bodies' bodies →
    R (l ++ [g'.choiceOn id (r v) bodies']) [s.hook (g'.choiceOn id (r v) bodies')] [t.hook (g.choiceOn id v bodies)]
  parallel (id : String) {l lanes' lanes} : LanesRelated R r l lanes' lanes →
    R (l ++ [.parallel id (LaneBody.lanes id 0 lanes')]) [s.hook (.parallel id (LaneBody.lanes id 0 lanes'))]
      [t.hook (.parallel id (LaneBody.lanes id 0 lanes))]

end Relates

variable {g g' : Graph} {r : Fin g.size ≃ Fin g'.size} {s : Setting g'} {t : Setting g} {R : Relation}

/-- Segments one level deeper match. -/
def Mirrors (R : Relation) (r : Fin g.size ≃ Fin g'.size) (deeper' : Unfolder g') (deeper : Unfolder g) : Prop :=
  ∀ segment stop scope, (deeper' (segment.map r) (stop.map r) (scope.map r)).Matches (deeper segment stop scope) R

variable (h : SameShape g g' r) (hk : s.Kindred t) (hR : Relates R r s t)

include hk in
/-- Graphs of one size have the same limit on elements. -/
theorem limit_eq (r : Fin g.size ≃ Fin g'.size) : s.limit = t.limit := by
  rw [limit, limit, SameShape.size_eq r, hk.maxDepth]

/-- Elements are submitted on both sides, and what comes of them may differ. -/
theorem submit_matches (s : Setting g') (t : Setting g) (element' element : Element) :
    (s.submit element').Matches (t.submit element) fun l a b => l = [element'] ∧ a = s.hook element' ∧ b = t.hook element := by
  refine Build.matches_bind Build.matches_submitted ?_
  rintro _ - - rfl
  exact Build.matches_pure ⟨rfl, rfl, rfl⟩

include hk in
theorem freshId_matches (kind : String) : (s.freshId kind).Matches (t.freshId kind) fun l a b => l = [] ∧ a = b := by
  refine Build.matches_bind Build.matches_nextNumber ?_
  rintro _ number _ ⟨rfl, rfl⟩
  exact Build.matches_pure ⟨rfl, by rw [hk.flowId]⟩

include hk in
/-- Announced ids are equal, as they do not depend on nodes. -/
theorem announce_matches (kind : String) (v : Fin g.size) :
    (s.announce kind (r v)).Matches (t.announce kind v) fun l a b => l = [] ∧ a = b := by
  refine Build.matches_bind (freshId_matches hk kind) ?_
  rintro _ id _ ⟨rfl, rfl⟩
  refine Build.matches_bind (Build.matches_tell nofun) ?_
  rintro _ - - rfl
  exact Build.matches_pure ⟨rfl, rfl⟩

include h

/-- A node is refused under the same id. -/
theorem unsupported_eq (v : Fin g.size) (obstacle : Obstacle) : unsupported (r v) obstacle = unsupported v obstacle := by
  rw [unsupported, unsupported, h.idAt]

/-- A node is refused for its component. -/
theorem unrecognized_eq (v : Fin g.size) : unsupported (r v) (.unrecognized (g'.node (r v)).component) =
    unsupported v (.unrecognized (g.node v).component) := by
  rw [unsupported_eq h, (h.node v).component]

include hk

/-- An element is counted on both sides, or is one too many on both. -/
theorem count_matches (v : Fin g.size) : (s.count (r v)).Matches (t.count v) fun l _ _ => l = [] := by
  rw [count, count, limit_eq hk r, h.idAt]
  exact Build.matches_count _ _

include hR

theorem step_matches (v : Fin g.size) : (s.step (r v)).Matches (t.step v) fun l a b => R l [a] [b] := by
  refine Build.matches_bind (count_matches h hk v) ?_
  rintro _ - - rfl
  refine (submit_matches s t _ _).mono ?_
  rintro _ _ _ ⟨rfl, rfl, rfl⟩
  exact hR.step v

theorem steps_matches (vs : List (Fin g.size)) : (s.steps (vs.map r)).Matches (t.steps vs) R := by
  induction vs with
  | nil => exact Build.matches_pure hR.nil
  | cons v rest ih =>
    refine Build.matches_bind (step_matches h hk hR v) fun l a b hfirst => ?_
    refine Build.matches_bind ih fun m as bs hrest => ?_
    exact Build.matches_pure (by simpa using hR.append hfirst hrest)

variable {deeper' : Unfolder g'} {deeper : Unfolder g} (hd : Mirrors R r deeper' deeper)

include hd

/-- What begins at a node, for each kind of node that the two graphs have in common there. -/
theorem unfoldFrom_matches (stray : String → Obstacle) (stop : Option (Fin g.size)) (scope : Scope g.size) (v : Fin g.size) :
    (s.unfoldFrom deeper' stray (stop.map r) (scope.map r) (r v)).Matches (t.unfoldFrom deeper stray stop scope v) R := by
  unfold unfoldFrom
  rw [unrecognized_eq h]
  cases hv : (g.node v).kind with
  | plain =>
    rw [h.kind_plain hv]
    refine Build.matches_bind (step_matches h hk hR v) fun l a b hfirst => ?_
    refine Build.matches_bind (hd (.after v) stop (scope.enter v)) fun m as bs hrest => ?_
    exact Build.matches_pure (by simpa using hR.append hfirst hrest)
  | conditional ids =>
    rw [h.kind_conditional hv]
    exact hd (.choice v) stop scope
  | branch parent condition =>
    obtain ⟨condition', hv', -⟩ := h.kind_branch hv
    rw [hv']
    simp only [unsupported_eq h]
    exact Build.matches_throw _
  | unrecognized =>
    rw [h.kind_unrecognized hv]
    exact Build.matches_throw _

/-- Sequences from a node and from its image: the runs take images of the same nodes. -/
theorem sequence_matches (v : Fin g.size) (stop : Option (Fin g.size)) (scope : Scope g.size) :
    (s.sequence deeper' (r v) (stop.map r) (scope.map r)).Matches (t.sequence deeper v stop scope) R := by
  have hrun : g'.run (stop.map r) (scope.map r).path (r v) = _ := h.run stop scope.path v
  unfold sequence
  rw [hrun]
  refine Build.matches_bind (steps_matches h hk hR _) fun l as bs hfirst => ?_
  have hscope : (scope.map r).enterAll ((g.run stop scope.path v).1.map r) =
      (scope.enterAll (g.run stop scope.path v).1).map r := by
    simp [Scope.enterAll, Scope.map]
  rw [hscope]
  cases (g.run stop scope.path v).2 with
  | done => exact Build.matches_pure (by simpa using hfirst)
  | fork start =>
    refine Build.matches_bind (hd (.fork start) stop _) fun m as' bs' hrest => ?_
    exact Build.matches_pure (by simpa using hR.append hfirst hrest)
  | loop source target =>
    refine Build.matches_bind (Build.matches_tell nofun) ?_
    rintro _ - - rfl
    exact Build.matches_pure (by simpa using hfirst)
  | conditional next =>
    refine Build.matches_bind (hd (.choice next) stop _) fun m as' bs' hrest => ?_
    exact Build.matches_pure (by simpa using hR.append hfirst hrest)
  | stray next parent =>
    simp only [RunEnd.map, unsupported_eq h]
    exact Build.matches_bind (R := fun _ _ _ => False) (Build.matches_throw _) fun _ _ _ hf => hf.elim
  | unrecognized next =>
    simp only [RunEnd.map, unrecognized_eq h]
    exact Build.matches_bind (R := fun _ _ _ => False) (Build.matches_throw _) fun _ _ _ hf => hf.elim

/-- What continues a structure: the merge nodes, and what they are shared by, are images. -/
theorem continuation_matches (start : Fin g.size) (stop : Option (Fin g.size)) (scope : Scope g.size) :
    (s.continuation deeper' (r start) (stop.map r) (scope.map r)).Matches (t.continuation deeper start stop scope) R := by
  unfold continuation
  rw [s.pairing_eq, t.pairing_eq, h.merge]
  cases g.pairing.mergeOf.get start with
  | none => exact Build.matches_pure hR.nil
  | some merge =>
    have hopened : ((scope.map r).opened.head? != some (r start)) = (scope.opened.head? != some start) :=
      RenumberingAux.head?_map_bne r scope.opened start
    have hpath : (scope.map r).path.contains (r merge) = scope.path.contains merge :=
      RenumberingAux.contains_map r scope.path merge
    simp only [Option.map_some, h.sharers, hopened, hpath, RenumberingAux.map_eq_some_iff]
    split
    · refine Build.matches_bind (Build.matches_tell nofun) ?_
      rintro _ - - rfl
      exact Build.matches_pure hR.nil
    · split
      · exact Build.matches_pure hR.nil
      · split
        · refine Build.matches_bind (Build.matches_tell nofun) ?_
          rintro _ - - rfl
          exact Build.matches_pure hR.nil
        · exact unfoldFrom_matches h hk hR hd _ stop scope merge

omit hR hk in
/-- Bodies under the branches of a choice, one by one. Conditions may differ, if both are there or neither is. -/
theorem armBodies_matches (conditional : Fin g.size) (scope : Scope g.size) (branches : List (Fin g.size)) :
    (s.armBodies deeper' (r conditional) (scope.map r) (branches.map r)).Matches (t.armBodies deeper conditional scope branches)
      fun l named' named => ∃ bodies' bodies, named' = bodies'.map (ArmBody.named g') ∧ named = bodies.map (ArmBody.named g) ∧
        bodies.map ArmBody.branch = branches ∧ ArmsRelated R r l bodies' bodies := by
  induction branches with
  | nil => exact Build.matches_pure ⟨[], [], rfl, rfl, rfl, .nil⟩
  | cons branch rest ih =>
    unfold armBodies
    rw [List.map_cons]
    simp only [h.idAt, s.pairing_eq, t.pairing_eq, h.merge, unsupported_eq h]
    cases hv : (g.node branch).kind with
    | branch parent condition =>
      obtain ⟨condition', hv', hc⟩ := h.kind_branch hv
      simp only [hv']
      refine Build.matches_bind (hd (.after branch) (g.pairing.mergeOf.get conditional) scope) fun l body' body hbody => ?_
      refine Build.matches_bind ih ?_
      rintro m _ _ ⟨bodies', bodies, rfl, rfl, rfl, hbodies⟩
      refine Build.matches_pure ⟨⟨r branch, condition', body'⟩ :: bodies', ⟨branch, condition, body⟩ :: bodies, ?_, rfl, rfl,
        ?_⟩
      · rw [List.map_cons, ArmBody.named, h.idAt]
      · rw [List.append_nil]
        exact .cons hv' hv hc hbody hbodies
    | plain =>
      rw [h.kind_plain hv]
      exact Build.matches_throw _
    | conditional ids =>
      rw [h.kind_conditional hv]
      exact Build.matches_throw _
    | unrecognized =>
      rw [h.kind_unrecognized hv]
      exact Build.matches_throw _

/-- Choices at a node and at its image. -/
theorem choice_matches (v : Fin g.size) (stop : Option (Fin g.size)) (scope : Scope g.size) :
    (s.choice deeper' (r v) (stop.map r) (scope.map r)).Matches (t.choice deeper v stop scope) R := by
  have hinner : ((scope.map r).openAt (r v)).enter (r v) = ((scope.openAt v).enter v).map r := by
    simp [Scope.openAt, Scope.enter, Scope.map]
  unfold choice
  rw [hinner, h.successors]
  refine Build.matches_bind (announce_matches hk "choice" v) ?_
  rintro _ id _ ⟨rfl, rfl⟩
  refine Build.matches_bind (armBodies_matches h hd v _ _) ?_
  rintro inside _ _ ⟨bodies', bodies, rfl, rfl, hbranches, hinside⟩
  refine Build.matches_bind (count_matches h hk v) ?_
  rintro _ - - rfl
  refine Build.matches_bind (submit_matches s t _ _) ?_
  rintro _ _ _ ⟨rfl, rfl, rfl⟩
  refine Build.matches_bind (continuation_matches h hk hR hd v stop _) fun after es' es hrest => ?_
  exact Build.matches_pure (by simpa [Graph.choiceOn] using hR.append (hR.choice id hbranches hinside) hrest)

/-- Bodies of lanes that begin at a node and at its image. -/
theorem laneBody_matches (start : Fin g.size) (scope : Scope g.size) (v : Fin g.size) :
    (s.laneBody deeper' (r start) (scope.map r) (r v)).Matches (t.laneBody deeper start scope v) R := by
  have hpath : (scope.map r).path.contains (r v) = scope.path.contains v := RenumberingAux.contains_map r scope.path v
  unfold laneBody
  simp only [s.pairing_eq, t.pairing_eq, h.merge, RenumberingAux.map_eq_some_iff, hpath, h.idAt]
  split
  · exact Build.matches_pure hR.nil
  · split
    · refine Build.matches_bind (Build.matches_tell nofun) ?_
      rintro _ - - rfl
      exact Build.matches_pure hR.nil
    · exact unfoldFrom_matches h hk hR hd _ _ scope v

/-- Lanes one by one, with the same ids. -/
theorem lanes_matches (id : String) (start : Fin g.size) (scope : Scope g.size) (index : Nat) (successors : List (Fin g.size)) :
    (s.lanes deeper' id (r start) (scope.map r) index (successors.map r)).Matches
      (t.lanes deeper id start scope index successors) fun l lanes' lanes =>
        ∃ bodies' bodies, lanes' = LaneBody.lanes id index bodies' ∧ lanes = LaneBody.lanes id index bodies ∧
          LanesRelated R r l bodies' bodies := by
  induction successors generalizing index with
  | nil => exact Build.matches_pure ⟨[], [], rfl, rfl, .nil⟩
  | cons v rest ih =>
    refine Build.matches_bind (laneBody_matches h hk hR hd start scope v) fun l body' body hbody => ?_
    refine Build.matches_bind (ih (index + 1)) ?_
    rintro m _ _ ⟨bodies', bodies, rfl, rfl, hbodies⟩
    refine Build.matches_pure ⟨⟨r v, body'⟩ :: bodies', ⟨v, body⟩ :: bodies, rfl, rfl, ?_⟩
    rw [List.append_nil]
    exact .cons hbody hbodies

/-- Parallel elements at a node and at its image. -/
theorem fork_matches (v : Fin g.size) (stop : Option (Fin g.size)) (scope : Scope g.size) :
    (s.fork deeper' (r v) (stop.map r) (scope.map r)).Matches (t.fork deeper v stop scope) R := by
  have hinner : (scope.map r).openAt (r v) = (scope.openAt v).map r := by
    simp [Scope.openAt, Scope.map]
  unfold fork
  rw [hinner, h.successors]
  refine Build.matches_bind (announce_matches hk "parallel" v) ?_
  rintro _ id _ ⟨rfl, rfl⟩
  refine Build.matches_bind (lanes_matches h hk hR hd id v _ 0 _) ?_
  rintro inside _ _ ⟨bodies', bodies, rfl, rfl, hinside⟩
  refine Build.matches_bind (count_matches h hk v) ?_
  rintro _ - - rfl
  refine Build.matches_bind (submit_matches s t _ _) ?_
  rintro _ _ _ ⟨rfl, rfl, rfl⟩
  refine Build.matches_bind (continuation_matches h hk hR hd v stop _) fun after es' es hrest => ?_
  exact Build.matches_pure (by simpa using hR.append (hR.parallel id hinside) hrest)

omit hd

/-- What is unfolded of two graphs of one shape matches. -/
theorem unfold_matches (depth : Nat) : Mirrors R r (s.unfold depth) (t.unfold depth) := by
  have hbare : ∀ segment : Segment g.size, isBareChoice (segment.map r) = isBareChoice segment := by
    intro segment
    cases segment with
    | choice v =>
      change (g'.successorsAt (r v)).isEmpty = (g.successorsAt v).isEmpty
      rw [h.successors, List.isEmpty_map]
    | _ => rfl
  have hnode : ∀ segment : Segment g.size, (segment.map r).node = r segment.node := by
    intro segment
    cases segment <;> rfl
  induction depth with
  | zero =>
    intro segment stop scope
    unfold unfold
    rw [hbare, hnode, unsupported_eq h, h.idAt, hk.maxDepth]
    split <;> exact Build.matches_throw _
  | succ depth ih =>
    intro segment stop scope
    unfold unfold
    rw [hbare, hnode, unsupported_eq h]
    split
    · exact Build.matches_throw _
    · cases segment with
      | after v => exact sequence_matches h hk hR ih v stop scope
      | choice v => exact choice_matches h hk hR ih v stop scope
      | fork v => exact fork_matches h hk hR ih v stop scope

/-- Plans from an entry and from its image. -/
theorem unfoldEntry_matches (entry : Fin g.size) : (s.unfoldEntry (r entry)).Matches (t.unfoldEntry entry) R := by
  have hd : Mirrors R r (s.unfold s.maxDepth) (t.unfold t.maxDepth) := hk.maxDepth ▸ unfold_matches h hk hR s.maxDepth
  unfold unfoldEntry
  rw [unsupported_eq h]
  cases hv : (g.node entry).kind with
  | conditional ids =>
    rw [h.kind_conditional hv]
    exact hd (.choice entry) none {}
  | plain =>
    rw [h.kind_plain hv]
    refine Build.matches_bind (step_matches h hk hR entry) fun l a b hfirst => ?_
    refine Build.matches_bind (hd (.after entry) none { path := [entry] }) fun m as bs hrest => ?_
    exact Build.matches_pure (by simpa using hR.append hfirst hrest)
  | branch parent condition =>
    obtain ⟨condition', hv', -⟩ := h.kind_branch hv
    rw [hv']
    exact Build.matches_throw _
  | unrecognized =>
    rw [h.kind_unrecognized hv]
    exact Build.matches_throw _

/-- Whole compilations of two graphs of one shape match. -/
theorem plan_matches (hentry : g'.entry = g.entry.map r) :
    s.plan.Matches t.plan fun l a b => ∃ es' es, R l es' es ∧ a = s.chain.onRoute s.flowId ⟨s.flowId, es'⟩ ∧
      b = t.chain.onRoute t.flowId ⟨t.flowId, es⟩ := by
  have hstart : (liftM g'.entry : Build (Fin g'.size)).Matches (liftM g.entry) fun l a b => l = [] ∧ a = r b := by
    rw [hentry]
    cases g.entry with
    | error e => exact Build.matches_throw e
    | ok entry => exact Build.matches_pure ⟨rfl, rfl⟩
  refine Build.matches_bind hstart ?_
  rintro _ _ entry ⟨rfl, rfl⟩
  refine Build.matches_bind (Build.matches_tell nofun) ?_
  rintro _ - - rfl
  refine Build.matches_bind (unfoldEntry_matches h hk hR entry) fun l es' es hsteps => ?_
  refine Build.matches_bind (Build.matches_tell nofun) ?_
  rintro _ - - rfl
  exact Build.matches_pure ⟨es', es, by simpa using hsteps, rfl, rfl⟩

end Setting

/-- Compilations of two graphs of one shape end with the same error or both with a plan. -/
theorem Compiler.compilation_of_sameShape {g g' : Graph} {r : Fin g.size ≃ Fin g'.size} {R : Setting.Relation} {c c' : Compiler}
    {flowId : String} (h : SameShape g g' r) (hentry : g'.entry = g.entry.map r)
    (hR : Setting.Relates R r (c'.setting flowId g') (c.setting flowId g)) (hdepth : c'.maxDepth = c.maxDepth) :
    (∃ e, c.compileGraph flowId g = .error e ∧ c'.compileGraph flowId g' = .error e) ∨
      ∃ es' es, c.compileGraph flowId g = .ok (c.chain.onRoute flowId ⟨flowId, es⟩) ∧
        c'.compileGraph flowId g' = .ok (c'.chain.onRoute flowId ⟨flowId, es'⟩) ∧
          R (Event.submissions (c'.compilation flowId g').events) es' es := by
  have hk : (c'.setting flowId g').Kindred (c.setting flowId g) := ⟨rfl, hdepth⟩
  rcases Setting.plan_matches h hk hR hentry {} {} rfl rfl with
    ⟨e, p', q', hx, hy⟩ | ⟨_, _, p', q', l, hx, hy, -, -, hl, es', es, hes, rfl, rfl⟩
  · refine Or.inl ⟨e, ?_, ?_⟩
    · simp only [compileGraph, compilation, hy]
    · simp only [compileGraph, compilation, hx]
  · unfold Build.Returns at hx hy
    refine Or.inr ⟨es', es, ?_, ?_, ?_⟩
    · simp only [compileGraph, compilation, hy]
      rfl
    · simp only [compileGraph, compilation, hx]
      rfl
    · simp only [compilation, hx, hl]
      exact hes

end FlowPlan
