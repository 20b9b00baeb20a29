import FlowPlan.Compile.Compiler
import FlowPlan.Proofs.Compile.Progress

/-!
# Frames

A `Frame` is what `Setting.unfold` is called for: a segment, the node to stop before and the scope. `Frame.Calls` relates a frame
to those that its unfolding calls for one level deeper, `Frame.Refuses` to the errors of nodes that cannot stand where it meets
them.

The depth that is left gets into an unfolding by way of these calls only. So whatever relation between two runs goes along with
putting parts of a compilation together (`Build.Congruence`) relates two unfoldings of a frame as soon as it relates those of all
frames that it calls for, and the errors that it refuses nodes with (`Setting.unfold_congruent`). A frame ends within `n` levels
when more depth changes nothing (`Setting.EndsWithin`); one level more than all called frames need is enough
(`Setting.EndsWithin.of_calls`).
-/

namespace FlowPlan

open FlowPlan.Graph

/-- To enter several nodes is to enter the first one and then the others. -/
@[simp] theorem Scope.enterAll_cons {n : Nat} (scope : Scope n) (v : Fin n) (vs : List (Fin n)) :
    scope.enterAll (v :: vs) = (scope.enter v).enterAll vs := by
  simp [Scope.enterAll, Scope.enter]

/-- What is unfolded where a run ends. -/
def Graph.RunEnd.segment? {n : Nat} : RunEnd n → Option (Segment n)
  | .fork start => some (.fork start)
  | .conditional next => some (.choice next)
  | _ => none

/-- A part of a plan that is unfolded one level deeper, with its place. -/
structure Frame (n : Nat) where
  segment : Segment n
  stop : Option (Fin n)
  scope : Scope n

namespace Frame

variable {g : Graph}

def unfoldBy (deeper : Unfolder g) (f : Frame g.size) : Build (List Element) :=
  deeper f.segment f.stop f.scope

/-- What is unfolded where a link leads to a node that is neither the one to stop before nor on the path. -/
inductive Begins (g : Graph) (stop : Option (Fin g.size)) (scope : Scope g.size) (v : Fin g.size) : Frame g.size → Prop
  | plain : (g.node v).kind = .plain → Begins g stop scope v ⟨.after v, stop, scope.enter v⟩
  | conditional {ids} : (g.node v).kind = .conditional ids → Begins g stop scope v ⟨.choice v, stop, scope⟩

/-- What is unfolded behind a choice or parallel element. -/
inductive Continues (g : Graph) (start : Fin g.size) (stop : Option (Fin g.size)) (scope : Scope g.size) : Frame g.size → Prop
  | intro {merge f} : g.pairing.mergeOf.get start = some merge →
      (1 < (g.pairing.startsOf.get merge).length → scope.opened.head? = some start) → stop ≠ some merge → merge ∉ scope.path →
      Begins g stop scope merge f → Continues g start stop scope f

/-- A frame calls for another one, one level deeper. -/
inductive Calls (g : Graph) : Frame g.size → Frame g.size → Prop
  | sequence {v stop scope segment} : (g.run stop scope.path v).2.segment? = some segment →
      Calls g ⟨.after v, stop, scope⟩ ⟨segment, stop, scope.enterAll (g.run stop scope.path v).1⟩
  | arm {v stop scope branch parent condition} : branch ∈ g.successorsAt v →
      (g.node branch).kind = .branch parent condition →
      Calls g ⟨.choice v, stop, scope⟩ ⟨.after branch, g.pairing.mergeOf.get v, (scope.openAt v).enter v⟩
  | behindChoice {v stop scope f} : Continues g v stop ((scope.openAt v).enter v) f → Calls g ⟨.choice v, stop, scope⟩ f
  | lane {v stop scope w f} : w ∈ g.successorsAt v → g.pairing.mergeOf.get v ≠ some w → w ∉ scope.path →
      Begins g (g.pairing.mergeOf.get v) (scope.openAt v) w f → Calls g ⟨.fork v, stop, scope⟩ f
  | behindFork {v stop scope f} : Continues g v stop (scope.openAt v) f → Calls g ⟨.fork v, stop, scope⟩ f

/-- The errors of a node at which nothing can begin; `stray` is what a branch of a conditional node is refused for. -/
inductive Rejects (g : Graph) (stray : String → Obstacle) (v : Fin g.size) : CompileError → Prop
  | branch {parent condition} : (g.node v).kind = .branch parent condition →
      Rejects g stray v (Setting.unsupported v (stray parent))
  | unrecognized : (g.node v).kind = .unrecognized →
      Rejects g stray v (Setting.unsupported v (.unrecognized (g.node v).component))

/-- The errors of nodes that cannot stand where a frame meets them. -/
inductive Refuses (g : Graph) : Frame g.size → CompileError → Prop
  | stray {v stop scope next parent} : (g.run stop scope.path v).2 = .stray next parent →
      Refuses g ⟨.after v, stop, scope⟩ (Setting.unsupported next (.strayBranch parent))
  | unrecognized {v stop scope next} : (g.run stop scope.path v).2 = .unrecognized next →
      Refuses g ⟨.after v, stop, scope⟩ (Setting.unsupported next (.unrecognized (g.node next).component))
  | bare {v stop scope} : g.successorsAt v = [] →
      Refuses g ⟨.choice v, stop, scope⟩ (Setting.unsupported v .noBranches)
  | foreign {v stop scope w} : w ∈ g.successorsAt v → (g.node w).isBranch = false →
      Refuses g ⟨.choice v, stop, scope⟩ (Setting.unsupported v (.foreignSuccessor (g.idAt w)))
  | behindChoice {v stop scope merge e} : g.pairing.mergeOf.get v = some merge → Rejects g (fun _ => .mergeIsBranch) merge e →
      Refuses g ⟨.choice v, stop, scope⟩ e
  | lane {v stop scope w e} : w ∈ g.successorsAt v → Rejects g .strayBranch w e → Refuses g ⟨.fork v, stop, scope⟩ e
  | behindFork {v stop scope merge e} : g.pairing.mergeOf.get v = some merge → Rejects g (fun _ => .mergeIsBranch) merge e →
      Refuses g ⟨.fork v, stop, scope⟩ e

/-- A node at which nothing can begin is refused for its shape. -/
theorem Rejects.eq_unsupported {stray : String → Obstacle} {v : Fin g.size} {e : CompileError} (h : Rejects g stray v e) :
    ∃ (v : Fin g.size) (obstacle : Obstacle), e = Setting.unsupported v obstacle := by
  cases h with
  | branch _ => exact ⟨v, _, rfl⟩
  | unrecognized _ => exact ⟨v, _, rfl⟩

/-- Frames refuse nodes for their shape and for nothing else. -/
theorem Refuses.eq_unsupported {f : Frame g.size} {e : CompileError} (h : f.Refuses g e) :
    ∃ (v : Fin g.size) (obstacle : Obstacle), e = Setting.unsupported v obstacle := by
  cases h with
  | behindChoice _ hr => exact hr.eq_unsupported
  | lane _ hr => exact hr.eq_unsupported
  | behindFork _ hr => exact hr.eq_unsupported
  | _ => exact ⟨_, _, rfl⟩

/-- A choice without branches is refused before the depth is looked at. -/
theorem Refuses.of_bare {segment : Segment g.size} (hbare : Setting.isBareChoice segment = true)
    (stop : Option (Fin g.size)) (scope : Scope g.size) :
    Refuses g ⟨segment, stop, scope⟩ (Setting.unsupported segment.node .noBranches) := by
  cases segment with
  | choice v => exact .bare (List.isEmpty_iff.1 hbare)
  | after v => cases hbare
  | fork v => cases hbare

end Frame

/-! ## Single levels -/

namespace Setting

variable {g : Graph} (s : Setting g) {segment : Segment g.size} (stop : Option (Fin g.size)) (scope : Scope g.size)

/-- A choice without branches is refused at every depth. -/
theorem unfold_bare (hbare : isBareChoice segment = true) (depth : Nat) :
    s.unfold depth segment stop scope = throw (unsupported segment.node .noBranches) := by
  unfold unfold
  rw [if_pos hbare]

/-- Where no level is left, any other segment is too deep. -/
theorem unfold_zero (hbare : isBareChoice segment = false) :
    s.unfold 0 segment stop scope = throw (.graphTooDeep (g.idAt segment.node) s.maxDepth) := by
  unfold unfold
  rw [hbare]
  rfl

/-- A sequence takes one level, and its calls have one less. -/
theorem unfold_after (depth : Nat) (v : Fin g.size) :
    s.unfold (depth + 1) (.after v) stop scope = s.sequence (s.unfold depth) v stop scope :=
  rfl

theorem unfold_choice {v : Fin g.size} (hs : g.successorsAt v ≠ []) (depth : Nat) :
    s.unfold (depth + 1) (.choice v) stop scope = s.choice (s.unfold depth) v stop scope := by
  have hbare : isBareChoice (.choice v) = false := Bool.eq_false_iff.2 (mt List.isEmpty_iff.1 hs)
  unfold unfold
  rw [hbare]
  rfl

theorem unfold_fork (depth : Nat) (v : Fin g.size) :
    s.unfold (depth + 1) (.fork v) stop scope = s.fork (s.unfold depth) v stop scope :=
  rfl

/-- What is unfolded at the end of a run. -/
def atEnd (deeper : Unfolder g) (stop : Option (Fin g.size)) (scope : Scope g.size) : RunEnd g.size → Build (List Element)
  | .done => return []
  | .fork start => deeper (.fork start) stop scope
  | .loop source target => do
    Build.tell (.loopEndsSequence (g.idAt source) (g.idAt target))
    return []
  | .conditional next => deeper (.choice next) stop scope
  | .stray next parent => throw (unsupported next (.strayBranch parent))
  | .unrecognized next => throw (unsupported next (.unrecognized (g.node next).component))

/-- A sequence is the steps of a run and what is unfolded at its end. -/
theorem sequence_eq (deeper : Unfolder g) (v : Fin g.size) : s.sequence deeper v stop scope = (do
    let first ← s.steps (g.run stop scope.path v).1
    let rest ← atEnd deeper stop (scope.enterAll (g.run stop scope.path v).1) (g.run stop scope.path v).2
    return first ++ rest) := by
  unfold sequence
  refine bind_congr fun first => ?_
  cases (g.run stop scope.path v).2 <;> simp only [atEnd, bind_assoc, pure_bind]

end Setting

/-! ## Relations between two runs -/

namespace Build

/-- A relation between two parts of a compilation that goes along with putting them together. It relates an error to itself when
`E` holds of it. -/
structure Congruence (E : CompileError → Prop) (Q : (α : Type) → Build α → Build α → Prop) : Prop where
  pure {α : Type} (a : α) : Q α (pure a) (pure a)
  bind {α β : Type} {m m' : Build α} {k k' : α → Build β} : Q α m m' → (∀ a, Q β (k a) (k' a)) → Q β (m >>= k) (m' >>= k')
  throw {α : Type} {e : CompileError} : E e → Q α (throw e) (throw e)
  tell (event : Event) : Q Unit (tell event) (tell event)
  nextNumber : Q Nat nextNumber nextNumber

end Build

namespace Setting

variable {g : Graph} {E : CompileError → Prop} {Q : (α : Type) → Build α → Build α → Prop} {s t : Setting g}

/-- Two settings that differ in their limits at most. -/
structure Alike (Q : (α : Type) → Build α → Build α → Prop) (s t : Setting g) : Prop where
  flowId : t.flowId = s.flowId
  chain : t.chain = s.chain
  count : ∀ v, Q Unit (s.count v) (t.count v)

variable (hQ : Build.Congruence E Q) (h : Alike Q s t)

include hQ

/-- Submitting depends on the flow and the interceptors only. -/
theorem submit_congruent (hf : t.flowId = s.flowId) (hc : t.chain = s.chain) (element : Element) :
    Q Element (s.submit element) (t.submit element) := by
  unfold submit
  rw [hf, hc]
  exact hQ.bind (hQ.tell _) fun _ => hQ.pure _

include h

/-- Ids do not depend on the limits. -/
theorem announce_congruent (kind : String) (v : Fin g.size) : Q String (s.announce kind v) (t.announce kind v) := by
  unfold announce freshId
  rw [h.flowId, s.pairing_eq, t.pairing_eq]
  refine hQ.bind (hQ.bind hQ.nextNumber fun _ => hQ.pure _) fun id => ?_
  exact hQ.bind (hQ.tell _) fun _ => hQ.pure _

theorem step_congruent (v : Fin g.size) : Q Element (s.step v) (t.step v) :=
  hQ.bind (h.count v) fun _ => submit_congruent hQ h.flowId h.chain _

theorem steps_congruent (vs : List (Fin g.size)) : Q (List Element) (s.steps vs) (t.steps vs) := by
  induction vs with
  | nil => exact hQ.pure _
  | cons v rest ih =>
    refine hQ.bind (step_congruent hQ h v) fun first => ?_
    exact hQ.bind ih fun others => hQ.pure _

variable {deeper deeper' : Unfolder g}

/-- What begins at a node is related if the frame that it calls for is, and `E` holds of the refusals. -/
theorem unfoldFrom_congruent {stray : String → Obstacle} {stop : Option (Fin g.size)} {scope : Scope g.size} {v : Fin g.size}
    (he : ∀ e, Frame.Rejects g stray v e → E e)
    (hd : ∀ f, Frame.Begins g stop scope v f → Q _ (f.unfoldBy deeper) (f.unfoldBy deeper')) :
    Q _ (s.unfoldFrom deeper stray stop scope v) (t.unfoldFrom deeper' stray stop scope v) := by
  unfold unfoldFrom
  cases hk : (g.node v).kind with
  | plain =>
    refine hQ.bind (step_congruent hQ h v) fun first => ?_
    exact hQ.bind (hd _ (.plain hk)) fun rest => hQ.pure _
  | conditional ids => exact hd _ (.conditional hk)
  | branch parent condition => exact hQ.throw (he _ (.branch hk))
  | unrecognized => exact hQ.throw (he _ (.unrecognized hk))

/-- Sequences are related if the frames at the ends of their runs are. -/
theorem sequence_congruent {v : Fin g.size} {stop : Option (Fin g.size)} {scope : Scope g.size}
    (he : ∀ e, Frame.Refuses g ⟨.after v, stop, scope⟩ e → E e)
    (hd : ∀ f, Frame.Calls g ⟨.after v, stop, scope⟩ f → Q _ (f.unfoldBy deeper) (f.unfoldBy deeper')) :
    Q _ (s.sequence deeper v stop scope) (t.sequence deeper' v stop scope) := by
  rw [sequence_eq, sequence_eq]
  refine hQ.bind (steps_congruent hQ h _) fun first => hQ.bind ?_ fun rest => hQ.pure _
  cases hend : (g.run stop scope.path v).2 with
  | done => exact hQ.pure _
  | fork start => exact hd _ (.sequence (by rw [hend]; rfl))
  | loop source target => exact hQ.bind (hQ.tell _) fun _ => hQ.pure _
  | conditional next => exact hd _ (.sequence (by rw [hend]; rfl))
  | stray next parent => exact hQ.throw (he _ (.stray hend))
  | unrecognized next => exact hQ.throw (he _ (.unrecognized hend))

/-- What continues a structure is related if what begins at the merge node is. -/
theorem continuation_congruent {start : Fin g.size} {stop : Option (Fin g.size)} {scope : Scope g.size}
    (he : ∀ merge, g.pairing.mergeOf.get start = some merge → ∀ e, Frame.Rejects g (fun _ => .mergeIsBranch) merge e → E e)
    (hd : ∀ f, Frame.Continues g start stop scope f → Q _ (f.unfoldBy deeper) (f.unfoldBy deeper')) :
    Q _ (s.continuation deeper start stop scope) (t.continuation deeper' start stop scope) := by
  unfold continuation
  rw [s.pairing_eq, t.pairing_eq]
  cases hm : g.pairing.mergeOf.get start with
  | none => exact hQ.pure _
  | some merge =>
    simp only
    split
    · exact hQ.bind (hQ.tell _) fun _ => hQ.pure _
    · rename_i hleft
      split
      · exact hQ.pure _
      · rename_i hstop
        split
        · exact hQ.bind (hQ.tell _) fun _ => hQ.pure _
        · rename_i hpath
          refine unfoldFrom_congruent hQ h (he merge hm) fun f hf => hd f (.intro hm ?_ hstop ?_ hf)
          · simpa using hleft
          · simpa using hpath

omit h in
/-- Bodies of a choice are related if each branch is. -/
theorem armBodies_congruent {conditional : Fin g.size} {scope : Scope g.size} {branches : List (Fin g.size)}
    (he : ∀ branch ∈ branches, (g.node branch).isBranch = false →
      E (unsupported conditional (.foreignSuccessor (g.idAt branch))))
    (hd : ∀ branch ∈ branches, ∀ parent condition, (g.node branch).kind = .branch parent condition →
      Q _ (deeper (.after branch) (g.pairing.mergeOf.get conditional) scope)
        (deeper' (.after branch) (g.pairing.mergeOf.get conditional) scope)) :
    Q _ (s.armBodies deeper conditional scope branches) (t.armBodies deeper' conditional scope branches) := by
  induction branches with
  | nil => exact hQ.pure _
  | cons branch rest ih =>
    unfold armBodies
    rw [s.pairing_eq, t.pairing_eq]
    cases hk : (g.node branch).kind with
    | branch parent condition =>
      refine hQ.bind (hd branch (List.mem_cons_self ..) parent condition hk) fun body => ?_
      refine hQ.bind (ih ?_ fun b hb => hd b (List.mem_cons_of_mem _ hb)) fun others => hQ.pure _
      exact fun b hb => he b (List.mem_cons_of_mem _ hb)
    | _ => exact hQ.throw (he branch (List.mem_cons_self ..) (by rw [Node.isBranch, hk]))

/-- Choices are related if their branches and what continues them are. -/
theorem choice_congruent {v : Fin g.size} {stop : Option (Fin g.size)} {scope : Scope g.size}
    (he : ∀ e, Frame.Refuses g ⟨.choice v, stop, scope⟩ e → E e)
    (hd : ∀ f, Frame.Calls g ⟨.choice v, stop, scope⟩ f → Q _ (f.unfoldBy deeper) (f.unfoldBy deeper')) :
    Q _ (s.choice deeper v stop scope) (t.choice deeper' v stop scope) := by
  unfold choice
  refine hQ.bind (announce_congruent hQ h "choice" v) fun id => ?_
  refine hQ.bind (armBodies_congruent hQ ?_ fun b hb parent condition hk => hd _ (.arm hb hk)) fun bodies => ?_
  · exact fun b hb hk => he _ (.foreign hb hk)
  refine hQ.bind (h.count v) fun _ => ?_
  refine hQ.bind (submit_congruent hQ h.flowId h.chain _) fun element => ?_
  refine hQ.bind (continuation_congruent hQ h ?_ fun f hf => hd f (.behindChoice hf)) fun rest => hQ.pure _
  exact fun merge hm e hr => he e (.behindChoice hm hr)

/-- Lanes are related if what begins in them is; a lane that is empty calls for nothing. -/
theorem laneBody_congruent {start : Fin g.size} {scope : Scope g.size} {v : Fin g.size}
    (he : ∀ e, Frame.Rejects g .strayBranch v e → E e)
    (hd : ∀ f, g.pairing.mergeOf.get start ≠ some v → v ∉ scope.path →
      Frame.Begins g (g.pairing.mergeOf.get start) scope v f → Q _ (f.unfoldBy deeper) (f.unfoldBy deeper')) :
    Q _ (s.laneBody deeper start scope v) (t.laneBody deeper' start scope v) := by
  unfold laneBody
  rw [s.pairing_eq, t.pairing_eq]
  simp only
  split
  · exact hQ.pure _
  · rename_i hmerge
    split
    · exact hQ.bind (hQ.tell _) fun _ => hQ.pure _
    · rename_i hpath
      exact unfoldFrom_congruent hQ h he fun f hf => hd f hmerge (by simpa using hpath) hf

/-- Lanes of a fork are related if each one is. -/
theorem lanes_congruent {id : String} {start : Fin g.size} {scope : Scope g.size} {index : Nat} {successors : List (Fin g.size)}
    (he : ∀ w ∈ successors, ∀ e, Frame.Rejects g .strayBranch w e → E e)
    (hd : ∀ w ∈ successors, ∀ f, g.pairing.mergeOf.get start ≠ some w → w ∉ scope.path →
      Frame.Begins g (g.pairing.mergeOf.get start) scope w f → Q _ (f.unfoldBy deeper) (f.unfoldBy deeper')) :
    Q _ (s.lanes deeper id start scope index successors) (t.lanes deeper' id start scope index successors) := by
  induction successors generalizing index with
  | nil => exact hQ.pure _
  | cons v rest ih =>
    refine hQ.bind (laneBody_congruent hQ h (he v (List.mem_cons_self ..)) (hd v (List.mem_cons_self ..))) fun body => ?_
    refine hQ.bind (ih ?_ fun w hw => hd w (List.mem_cons_of_mem _ hw)) fun others => hQ.pure _
    exact fun w hw => he w (List.mem_cons_of_mem _ hw)

/-- Parallel elements are related if their lanes and what continues them are. -/
theorem fork_congruent {v : Fin g.size} {stop : Option (Fin g.size)} {scope : Scope g.size}
    (he : ∀ e, Frame.Refuses g ⟨.fork v, stop, scope⟩ e → E e)
    (hd : ∀ f, Frame.Calls g ⟨.fork v, stop, scope⟩ f → Q _ (f.unfoldBy deeper) (f.unfoldBy deeper')) :
    Q _ (s.fork deeper v stop scope) (t.fork deeper' v stop scope) := by
  unfold fork
  refine hQ.bind (announce_congruent hQ h "parallel" v) fun id => ?_
  refine hQ.bind (lanes_congruent hQ h ?_ fun w hw f hmerge hpath hf => hd f (.lane hw hmerge hpath hf)) fun lanes => ?_
  · exact fun w hw e hr => he e (.lane hw hr)
  refine hQ.bind (h.count v) fun _ => ?_
  refine hQ.bind (submit_congruent hQ h.flowId h.chain _) fun element => ?_
  refine hQ.bind (continuation_congruent hQ h ?_ fun f hf => hd f (.behindFork hf)) fun rest => hQ.pure _
  exact fun merge hm e hr => he e (.behindFork hm hr)

/-- Two unfoldings of a frame are related when those of all frames that it calls for are. -/
theorem unfold_congruent {f : Frame g.size} {depth depth' : Nat} (he : ∀ e, f.Refuses g e → E e)
    (hd : ∀ f', f.Calls g f' → Q _ (f'.unfoldBy (s.unfold depth)) (f'.unfoldBy (t.unfold depth'))) :
    Q _ (f.unfoldBy (s.unfold (depth + 1))) (f.unfoldBy (t.unfold (depth' + 1))) := by
  obtain ⟨segment, stop, scope⟩ := f
  unfold Frame.unfoldBy unfold
  split
  · rename_i hbare
    exact hQ.throw (he _ (.of_bare hbare stop scope))
  · cases segment with
    | after v => exact sequence_congruent hQ h he hd
    | choice v => exact choice_congruent hQ h he hd
    | fork v => exact fork_congruent hQ h he hd

/-- Plans are related if what begins at the entry is. -/
theorem unfoldEntry_congruent {entry : Fin g.size}
    (he : (∀ f, ¬ Frame.Begins g none {} entry f) → E (unsupported entry .entryNotRunnable))
    (hd : ∀ f, Frame.Begins g none {} entry f → Q _ (f.unfoldBy (s.unfold s.maxDepth)) (f.unfoldBy (t.unfold t.maxDepth))) :
    Q _ (s.unfoldEntry entry) (t.unfoldEntry entry) := by
  unfold unfoldEntry
  cases hk : (g.node entry).kind with
  | conditional ids => exact hd _ (.conditional hk)
  | plain =>
    refine hQ.bind (step_congruent hQ h entry) fun first => ?_
    exact hQ.bind (hd _ (.plain hk)) fun rest => hQ.pure _
  | _ =>
    refine hQ.throw (he fun f hf => ?_)
    cases hf with
    | plain hk' => exact absurd (hk.symm.trans hk') nofun
    | conditional hk' => exact absurd (hk.symm.trans hk') nofun

/-- Two compilations are related when the unfoldings of the frame at the entry are. -/
theorem plan_congruent (hnone : ∀ candidates, g.entry = .error (.noEntryNode candidates) → E (.noEntryNode candidates))
    (he : ∀ v, g.entry = .ok v → (∀ f, ¬ Frame.Begins g none {} v f) → E (unsupported v .entryNotRunnable))
    (hd : ∀ v f, g.entry = .ok v → Frame.Begins g none {} v f →
      Q _ (f.unfoldBy (s.unfold s.maxDepth)) (f.unfoldBy (t.unfold t.maxDepth))) : Q Route s.plan t.plan := by
  unfold plan
  rw [h.flowId, h.chain]
  cases hentry : g.entry with
  | error e =>
    -- no entry is the only obstacle here
    obtain ⟨candidates, rfl⟩ : ∃ candidates, e = .noEntryNode candidates := by
      unfold entry at hentry
      split at hentry
      · cases hentry
      · exact ⟨_, (Except.error.inj hentry).symm⟩
    exact hQ.throw (hnone candidates hentry)
  | ok entry =>
    have hpure : (liftM (Except.ok entry : Except CompileError (Fin g.size)) : Build (Fin g.size)) = pure entry := rfl
    rw [hpure, pure_bind, pure_bind]
    refine hQ.bind (hQ.tell _) fun _ => ?_
    refine hQ.bind (unfoldEntry_congruent hQ h (he entry hentry) fun f hf => hd entry f hentry hf) fun steps => ?_
    exact hQ.bind (hQ.tell _) fun _ => hQ.pure _

end Setting

/-! ## Enough depth -/

namespace Build

/-- Two parts are the same, and none of them runs out of depth. -/
def Settled (α : Type) (m m' : Build α) : Prop :=
  m = m' ∧ ∀ p node depth, (m.run.run p).1 ≠ .error (.graphTooDeep node depth)

/-- Runs that are settled stay so when they are put together; of errors, only those of depth are not. -/
theorem congruence_settled : Congruence (fun e => ∀ node depth, e ≠ .graphTooDeep node depth) Settled where
  pure a := ⟨rfl, nofun⟩
  bind := by
    rintro α β m _ k k' ⟨rfl, hm⟩ hk
    refine ⟨bind_congr fun a => (hk a).1, fun p node depth => ?_⟩
    have hm' := hm p node depth
    rw [run_bind]
    cases hrun : m.run.run p with
    | mk outcome q =>
      cases outcome with
      | ok a => exact (hk a).2 q node depth
      | error e =>
        rw [hrun] at hm'
        rintro ⟨⟩
        exact hm' rfl
  throw h := ⟨rfl, fun p node depth he => h node depth (Except.error.inj he)⟩
  tell event := ⟨rfl, nofun⟩
  nextNumber := ⟨rfl, nofun⟩

/-- To count an element never runs out of depth. -/
theorem settled_count (limit : Nat) (node : String) : Settled Unit (count limit node) (count limit node) := by
  refine ⟨rfl, fun p n depth => ?_⟩
  rw [run_count]
  split <;> nofun

end Build

namespace Setting

variable {g : Graph} {s : Setting g}

theorem alike_settled : Alike Build.Settled s s :=
  ⟨rfl, rfl, fun _ => Build.settled_count _ _⟩

/-- The unfolding of a frame goes so many levels deep at most: with more depth it is the same. -/
def EndsWithin (s : Setting g) (n : Nat) (f : Frame g.size) : Prop :=
  ∀ depth depth', n ≤ depth → n ≤ depth' → Build.Settled _ (f.unfoldBy (s.unfold depth)) (f.unfoldBy (s.unfold depth'))

/-- A frame that ends within a depth ends within every larger one. -/
theorem EndsWithin.mono {n m : Nat} {f : Frame g.size} (h : s.EndsWithin n f) (hnm : n ≤ m) : s.EndsWithin m f :=
  fun depth depth' hd hd' => h depth depth' (Nat.le_trans hnm hd) (Nat.le_trans hnm hd')

/-- A frame needs one level more than the frames that it calls for. -/
theorem EndsWithin.of_calls {n : Nat} {f : Frame g.size}
    (h : ∀ f', f.Calls g f' → s.EndsWithin n f') : s.EndsWithin (n + 1) f := by
  intro depth depth' hd hd'
  obtain ⟨k, rfl⟩ := Nat.exists_eq_add_of_le hd
  obtain ⟨k', rfl⟩ := Nat.exists_eq_add_of_le hd'
  rw [Nat.add_right_comm n 1, Nat.add_right_comm n 1]
  refine unfold_congruent Build.congruence_settled alike_settled (fun e he => ?_) fun f' hf' => ?_
  · obtain ⟨v, obstacle, rfl⟩ := he.eq_unsupported
    exact nofun
  · exact h f' hf' _ _ (by omega) (by omega)

end Setting

/-- With as much depth as the frame at the entry needs, a compilation does not run out of it. -/
theorem Compiler.compileGraph_ne_graphTooDeep {c : Compiler} {flowId : String} {g : Graph}
    (h : ∀ v f, g.entry = .ok v → Frame.Begins g none {} v f → (c.setting flowId g).EndsWithin c.maxDepth f) (node : String)
    (depth : Nat) :
    c.compileGraph flowId g ≠ .error (.graphTooDeep node depth) := by
  have hplan := Setting.plan_congruent Build.congruence_settled (Setting.alike_settled (s := c.setting flowId g))
    (fun _ _ => nofun) (fun _ _ _ => nofun) fun v f hv hf => h v f hv hf _ _ (Nat.le_refl _) (Nat.le_refl _)
  exact hplan.2 {} node depth

end FlowPlan
