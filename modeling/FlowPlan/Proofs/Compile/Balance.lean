import FlowPlan.Compile.Hooks
import FlowPlan.Proofs.Compile.Bookkeeping
import FlowPlan.Proofs.Compile.Spines

/-!
# Balanced books

A clerk does what the compilation does that is told depth and scope (`Clerk.Follows`): the same results, errors, counters and
events. From the books of a scope on, every part of the work comes back to the books of that scope (`Clerk.segment_follows`). What
this needs is that a choice is only called for on a node that is not on the path (`Clerk.Assists`); every caller checks it.

Main statement: whatever call of a compilation ends well leaves the books as it found them, and no counter has fallen
(`books_balanced`).
-/

namespace FlowPlan

open FlowPlan.Graph

/-! ## The books of a scope -/

namespace Books

variable {n : Nat} {depth : Nat} {scope : Scope n} {v : Fin n}

/-- The books at a depth and in a scope. -/
def ofScope (depth : Nat) (scope : Scope n) : Books n :=
  ⟨depth, scope.opened, scope.path.toFinset⟩

@[simp] theorem mem_path_ofScope : v ∈ (ofScope depth scope).path ↔ v ∈ scope.path :=
  List.mem_toFinset

@[simp] theorem descend_ofScope : (ofScope depth scope).descend = ofScope (depth + 1) scope :=
  rfl

@[simp] theorem ascend_ofScope : (ofScope (depth + 1) scope).ascend = ofScope depth scope :=
  rfl

/-- An open branch start goes onto the books as it goes onto the scope. -/
@[simp] theorem openAt_ofScope : (ofScope depth scope).openAt v = ofScope depth (scope.openAt v) :=
  rfl

/-- An entered node goes onto the books as it goes onto the scope, where the path has an order. -/
@[simp] theorem enter_ofScope : (ofScope depth scope).enter v = ofScope depth (scope.enter v) := by
  rw [ofScope, ofScope, enter, Scope.enter, List.toFinset_cons]

/-- A node is entered and left again, unless it was on the path before. -/
theorem leave_ofScope_enter (h : v ∉ scope.path) : (ofScope depth (scope.enter v)).leave v = ofScope depth scope := by
  rw [← enter_ofScope, leave, enter, Finset.erase_insert (mt mem_path_ofScope.1 h)]

/-- Closing undoes what opening did, whatever the branch start. -/
@[simp] theorem close_ofScope_openAt : (ofScope depth (scope.openAt v)).close = ofScope depth scope := by
  rw [ofScope, Scope.openAt, close, List.dropLast_concat]
  rfl

/-- To leave several nodes is to take them all off the path at once. -/
theorem leaveAll_eq (vs : List (Fin n)) (b : Books n) : b.leaveAll vs = { b with path := b.path \ vs.toFinset } := by
  induction vs generalizing b with
  | nil =>
    rw [List.toFinset_nil, Finset.sdiff_empty]
    rfl
  | cons v rest ih =>
    have hpath : (b.leave v).path \ rest.toFinset = b.path \ insert v rest.toFinset := by
      rw [leave, Finset.erase_sdiff_comm, Finset.sdiff_insert]
    rw [leaveAll, List.foldl_cons, ← leaveAll, ih, List.toFinset_cons, hpath]
    rfl

/-- So it is with several nodes, all of them off the path before. -/
theorem leaveAll_ofScope_enterAll {vs : List (Fin n)} (h : ∀ v ∈ vs, v ∉ scope.path) :
    (ofScope depth (scope.enterAll vs)).leaveAll vs = ofScope depth scope := by
  have hdisjoint : Disjoint vs.toFinset scope.path.toFinset := by
    rw [Finset.disjoint_left]
    exact fun v hv hm => h v (List.mem_toFinset.1 hv) (List.mem_toFinset.1 hm)
  rw [leaveAll_eq, ofScope, ofScope, Scope.enterAll, List.toFinset_append, List.toFinset_reverse,
    Finset.union_sdiff_cancel_left hdisjoint]

end Books

/-! ## Counters -/

namespace Build

variable {α β : Type}

/-- A part of a compilation lets no counter fall, even where it fails. -/
def Climbs (m : Build α) : Prop :=
  ∀ p, p.nextId ≤ (m.run.run p).2.nextId ∧ p.emitted ≤ (m.run.run p).2.emitted

theorem climbs_pure (a : α) : Climbs (pure a) :=
  fun _ => ⟨Nat.le_refl _, Nat.le_refl _⟩

/-- Two parts that let no counter fall, one after the other. If the first one fails, the second one is not run. -/
theorem Climbs.bind {m : Build α} {f : α → Build β} (hm : m.Climbs) (hf : ∀ a, (f a).Climbs) : (m >>= f).Climbs := by
  intro p
  have hfirst := hm p
  rw [run_bind]
  rcases hrun : m.run.run p with ⟨e | a, q⟩ <;> rw [hrun] at hfirst
  · exact hfirst
  · have hrest := hf a q
    exact ⟨Nat.le_trans hfirst.1 hrest.1, Nat.le_trans hfirst.2 hrest.2⟩

/-- Events are not counted. -/
theorem climbs_tell (event : Event) : (tell event).Climbs :=
  fun _ => ⟨Nat.le_refl _, Nat.le_refl _⟩

/-- The next number is one more than the last one. -/
theorem climbs_nextNumber : nextNumber.Climbs :=
  fun _ => ⟨Nat.le_succ _, Nat.le_refl _⟩

/-- An element too many is counted all the same, and then refused. -/
theorem climbs_count (limit : Nat) (node : String) : (count limit node).Climbs := by
  intro p
  rw [run_count]
  exact ⟨Nat.le_refl _, Nat.le_succ _⟩

end Build

namespace Setting

variable {g : Graph} {s : Setting g}

/-- Interceptors do not touch the counters. -/
theorem submit_climbs (element : Element) : (s.submit element).Climbs :=
  (Build.climbs_tell _).bind fun _ => Build.climbs_pure _

/-- A step counts one element and gives no number. -/
theorem step_climbs (v : Fin g.size) : (s.step v).Climbs :=
  (Build.climbs_count _ _).bind fun _ => submit_climbs _

/-- An id takes one number. -/
theorem announce_climbs (kind : String) (v : Fin g.size) : (s.announce kind v).Climbs :=
  (Build.climbs_nextNumber.bind fun _ => Build.climbs_pure _).bind fun _ =>
    (Build.climbs_tell _).bind fun _ => Build.climbs_pure _

end Setting

/-- A call left the books as it found them, and no counter below what it was. -/
structure Ledger.Entry.Balanced {n : Nat} (e : Ledger.Entry n) : Prop where
  books : e.left.books = e.found.books
  nextId : e.found.progress.nextId ≤ e.left.progress.nextId
  emitted : e.found.progress.emitted ≤ e.left.progress.emitted

/-! ## Work that follows a compilation -/

namespace Clerk

section Rules

variable {n : Nat} {α β : Type} {b b' b'' : Books n} {w : Clerk n α} {m : Build α}

/-- How a clerk's work that began at the ledger `l` went: as a part of a compilation does. All calls that it recorded are
balanced, and where it ended well the books are `b`. -/
structure Went (m : Build α) (b : Books n) (l : Ledger n) (outcome : Except CompileError α) (l' : Ledger n) : Prop where
  made : m.run.run l.progress = (outcome, l'.progress)
  nextId : l.progress.nextId ≤ l'.progress.nextId
  emitted : l.progress.emitted ≤ l'.progress.emitted
  balanced : ∀ e ∈ l'.entries, e ∈ l.entries ∨ e.Balanced
  books : ∀ a, outcome = .ok a → l'.books = b

/-- From the books `b` on, a clerk's work goes as a part of a compilation does, and comes to the books `b'`. -/
def Follows (b : Books n) (w : Clerk n α) (m : Build α) (b' : Books n) : Prop :=
  ∀ l outcome l', l.books = b → w.run.run l = (outcome, l') → Went m b' l outcome l'

/-- A clerk who does a part of a compilation changes the counters and leaves the books alone. -/
theorem run_lift (m : Build α) (l : Ledger n) :
    (lift m).run.run l = ((m.run.run l.progress).1, { l with progress := (m.run.run l.progress).2 }) :=
  rfl

/-- A change of the books leaves the counters and the record alone. -/
theorem run_change (f : Books n → Books n) (l : Ledger n) :
    (change f).run.run l = (.ok (), { l with books := f l.books }) :=
  rfl

/-- Work of which nothing is counted or recorded. -/
theorem Went.of_same {l l' : Ledger n} {outcome : Except CompileError α} (hm : m.run.run l.progress = (outcome, l'.progress))
    (hp : l'.progress = l.progress) (he : l'.entries = l.entries) (hb : ∀ a, outcome = .ok a → l'.books = b) :
    Went m b l outcome l' where
  made := hm
  nextId := Nat.le_of_eq (by rw [hp])
  emitted := Nat.le_of_eq (by rw [hp])
  balanced _ h := Or.inl (he ▸ h)
  books := hb

/-- A result on its own leaves the books as they are. -/
theorem follows_pure (a : α) : Follows b (pure a) (pure a) b := by
  rintro l _ _ hb ⟨⟩
  exact .of_same rfl rfl rfl fun _ _ => hb

/-- After an error nothing is asked of the books. -/
theorem follows_throw (e : CompileError) : Follows b (throw e : Clerk n α) (throw e) b' := by
  rintro l _ _ - ⟨⟩
  exact .of_same rfl rfl rfl nofun

/-- A part of a compilation that is not about nodes leaves the books as they are. -/
theorem follows_lift (hm : m.Climbs) : Follows b (lift m) m b := by
  rintro l _ _ hb ⟨⟩
  exact ⟨rfl, (hm _).1, (hm _).2, fun _ => Or.inl, fun _ _ => hb⟩

/-- A compilation knows nothing of a change of the books. -/
theorem follows_change (f : Books n → Books n) : Follows b (change f) (pure ()) (f b) := by
  rintro l _ _ rfl ⟨⟩
  exact .of_same rfl rfl rfl fun _ _ => rfl

/-- A clerk who looks at the books sees those that the compilation came to. -/
theorem follows_look : Follows b look (pure b) b := by
  rintro l _ _ rfl ⟨⟩
  exact .of_same rfl rfl rfl fun _ _ => rfl

/-- Work that returns `h` of what the compilation returns, and what comes after it. -/
theorem Follows.bind_map {γ : Type} {m : Build γ} {h : γ → α} {f : α → Clerk n β} {k : γ → Build β}
    (hw : Follows b w (m >>= fun c => pure (h c)) b') (hf : ∀ c, Follows b' (f (h c)) (k c) b'') :
    Follows b (w >>= f) (m >>= k) b'' := by
  intro l outcome l' hb hrun
  rw [Build.run_bind] at hrun
  rcases hwork : w.run.run l with ⟨x, r⟩
  have hfirst := hw l x r hb hwork
  have hmade := hfirst.made
  rw [hwork] at hrun
  rw [Build.run_bind] at hmade
  rcases hm : m.run.run l.progress with ⟨e | c, p⟩ <;> rw [hm] at hmade <;> cases hmade
  · cases hrun
    exact ⟨by rw [Build.run_bind, hm], hfirst.nextId, hfirst.emitted, hfirst.balanced, nofun⟩
  · have hrest := hf c r outcome l' (hfirst.books _ rfl) hrun
    exact {
      made := by rw [Build.run_bind, hm]; exact hrest.made
      nextId := Nat.le_trans hfirst.nextId hrest.nextId
      emitted := Nat.le_trans hfirst.emitted hrest.emitted
      balanced := fun e he => (hrest.balanced e he).elim (hfirst.balanced e) Or.inr
      books := hrest.books }

/-- Work goes on from the books that the work before it came to. -/
theorem Follows.bind {f : α → Clerk n β} {k : α → Build β} (hw : Follows b w m b') (hf : ∀ a, Follows b' (f a) (k a) b'') :
    Follows b (w >>= f) (m >>= k) b'' :=
  Follows.bind_map (h := fun a => a) ((bind_pure m).symm ▸ hw) hf

/-- Work that a compilation knows nothing of. -/
theorem Follows.after {f : α → Clerk n β} {m : Build β} {a : α} (hw : Follows b w (pure a) b') (hf : Follows b' (f a) m b'') :
    Follows b (w >>= f) m b'' :=
  Follows.bind_map (m := pure ()) (h := fun _ => a) hw fun _ => hf

/-- Work may be written in another way, if it runs the same on the books that it begins with. -/
theorem Follows.of_run_eq {w' : Clerk n α} (h : Follows b w m b') (he : ∀ l, l.books = b → w'.run.run l = w.run.run l) :
    Follows b w' m b' :=
  fun l outcome l' hb hrun => h l outcome l' hb (he l hb ▸ hrun)

theorem follows_ite {c : Prop} [Decidable c] {w' : Clerk n α} {m' : Build α} (h : Follows b w m b') (h' : Follows b w' m' b') :
    Follows b (if c then w else w') (if c then m else m') b' := by
  split
  · exact h
  · exact h'

/-- The books are changed once more at the end. -/
theorem Follows.and_change (hw : Follows b w m b') (f : Books n → Books n) :
    Follows b (do let a ← w; change f; return a) m (f b') :=
  (bind_pure m) ▸ hw.bind fun a => (follows_change f).after (follows_pure a)

/-- A call that ends well is put on record with the ledgers before and after it. -/
theorem run_recorded (call : Call n) (w : Clerk n α) (l : Ledger n) :
    (recorded call w).run.run l = match w.run.run l with
      | (.ok a, l') => (.ok a, { l' with entries := ⟨call, l.toStanding, l'.toStanding⟩ :: l'.entries })
      | (.error e, l') => (.error e, l') := by
  unfold recorded
  rw [Build.run_bind]
  change (w >>= _).run.run l = _
  rw [Build.run_bind]
  rcases w.run.run l with ⟨_ | _, _⟩ <;> rfl

/-- A call that comes back to the books it found is recorded as a balanced one. -/
theorem follows_recorded {call : Call n} (hw : Follows b w m b) : Follows b (recorded call w) m b := by
  intro l outcome l' hb hrun
  rw [run_recorded] at hrun
  rcases hwork : w.run.run l with ⟨e | a, r⟩ <;> rw [hwork] at hrun <;> cases hrun
  · exact hw l _ _ hb hwork
  · have hwent := hw l _ _ hb hwork
    have hbooks : r.books = l.books := (hwent.books a rfl).trans hb.symm
    refine { hwent with balanced := fun e he => ?_ }
    rcases List.mem_cons.1 he with rfl | he
    · exact Or.inr ⟨hbooks, hwent.nextId, hwent.emitted⟩
    · exact hwent.balanced e he

end Rules

variable {g : Graph} {s : Setting g} {depth : Nat} {scope : Scope g.size} {stop : Option (Fin g.size)} {v : Fin g.size}

theorem run_walk (l : Ledger g.size) : (ExceptT.mk (walk s stop v) : Clerk g.size _).run.run l = walk s stop v l :=
  rfl

/-- A walk that can take no step ends at once. -/
theorem walk_of_end {l : Ledger g.size} {ending : RunEnd g.size}
    (h : g.next stop (fun w => w ∈ l.books.path) v = .inl ending) : walk s stop v l = (.ok ([], [], ending), l) := by
  rw [walk]
  split <;> rename_i hnext <;> cases hnext.symm.trans h
  rfl

/-- A walk takes a step onto a plain node, enters it and goes on from there. -/
theorem walk_of_plain {w : Fin g.size} {l : Ledger g.size} (h : g.next stop (fun w => w ∈ l.books.path) v = .inr w) :
    walk s stop v l = (do
      let first ← lift (s.step w)
      change (·.enter w)
      let (rest, entered, ending) ← (ExceptT.mk (walk s stop w) : Clerk g.size _)
      return (first :: rest, w :: entered, ending) : Clerk g.size _).run.run l := by
  rw [walk]
  split <;> rename_i hnext <;> cases hnext.symm.trans h
  rw [Build.run_bind, run_lift]
  rcases (s.step w).run.run l.progress with ⟨e | first, progress⟩
  · rfl
  · simp only
    rw [Build.run_bind, run_change]
    simp only
    rw [Build.run_bind, run_walk]
    rcases walk s stop w _ with ⟨_ | ⟨rest, entered, ending⟩, l⟩ <;> rfl

/-- A walk takes the steps of a run and enters its nodes. -/
theorem walk_follows (path opened : List (Fin g.size)) (v : Fin g.size) :
    Follows (.ofScope depth ⟨path, opened⟩) (ExceptT.mk (walk s stop v))
      (do let first ← s.steps (g.run stop path v).1
          return (first, g.run stop path v))
      (.ofScope depth (Scope.enterAll ⟨path, opened⟩ (g.run stop path v).1)) := by
  have hbooks : ∀ l : Ledger g.size, l.books = .ofScope depth ⟨path, opened⟩ →
      (fun w => decide (w ∈ l.books.path)) = path.contains := by
    intro l hb
    funext w
    rw [hb, Bool.eq_iff_iff, decide_eq_true_iff, Books.mem_path_ofScope, List.contains_iff_mem]
  rw [run_eq_next]
  cases hnext : g.next stop path.contains v with
  | inl ending =>
    refine (follows_pure _).of_run_eq fun l hb => ?_
    exact walk_of_end (hbooks l hb ▸ hnext)
  | inr w =>
    have hpath : ¬ path.contains w = true := Bool.eq_false_iff.1 (not_onPath_of_next hnext)
    have hlater := walk_follows (w :: path) opened w
    simp only
    generalize g.run stop (w :: path) w = later at hlater ⊢
    have hsteps : (do let first ← s.steps (w :: later.1); return (first, w :: later.1, later.2) : Build _) = (do
        let first ← s.step w
        let (rest, entered, ending) ← (do let rest ← s.steps later.1; return (rest, later) : Build _)
        return (first :: rest, w :: entered, ending)) := by
      simp only [Setting.steps, bind_assoc, pure_bind]
    rw [hsteps, Scope.enterAll_cons]
    refine Follows.of_run_eq ?_ fun l hb => walk_of_plain (hbooks l hb ▸ hnext)
    refine (follows_lift (Setting.step_climbs _)).bind fun first => (follows_change _).after ?_
    rw [Books.enter_ofScope]
    exact hlater.bind fun _ => follows_pure _
termination_by (offPath path).length
decreasing_by exact length_offPath_cons hpath

/-! ## Parts of the work -/

/-- An assistant who starts at some depth does what an unfolder does. For a choice its node must not be on the path. -/
structure Assists (depth : Nat) (deeper : Assistant g) (unfolder : Unfolder g) : Prop where
  after : ∀ {v stop scope},
    Follows (.ofScope depth scope) (deeper (.after v) stop) (unfolder (.after v) stop scope) (.ofScope depth scope)
  choice : ∀ {v stop scope}, v ∉ scope.path →
    Follows (.ofScope depth scope) (deeper (.choice v) stop) (unfolder (.choice v) stop scope) (.ofScope depth scope)
  fork : ∀ {v stop scope},
    Follows (.ofScope depth scope) (deeper (.fork v) stop) (unfolder (.fork v) stop scope) (.ofScope depth scope)

variable {deeper : Assistant g} {unfolder : Unfolder g}

/-- Nothing is left after an event. -/
theorem follows_told {n : Nat} {b : Books n} (event : Event) :
    Follows b (do lift (Build.tell event); return ([] : List Element)) (do Build.tell event; return []) b :=
  (follows_lift (Build.climbs_tell _)).bind fun _ => follows_pure _

/-- What is compiled at the end of a run. A choice is compiled only if its node is not on the path. -/
theorem atEnd_follows (hd : Assists depth deeper unfolder) {ending : RunEnd g.size}
    (hnext : ∀ next, ending = .conditional next → next ∉ scope.path) :
    Follows (.ofScope depth scope) (atEnd deeper stop ending) (Setting.atEnd unfolder stop scope ending)
      (.ofScope depth scope) := by
  cases ending with
  | done => exact follows_pure _
  | fork start => exact hd.fork
  | loop source target => exact follows_told _
  | conditional next => exact hd.choice (hnext next rfl)
  | stray next parent => exact follows_throw _
  | unrecognized next => exact follows_throw _

/-- A sequence enters the nodes of its run, and leaves them all at its end. -/
theorem sequence_follows (hd : Assists depth deeper unfolder) :
    Follows (.ofScope depth scope) (sequence s deeper v stop) (s.sequence unfolder v stop scope) (.ofScope depth scope) := by
  rw [Setting.sequence_eq]
  refine (walk_follows scope.path scope.opened v).bind_map fun first => ?_
  refine (atEnd_follows hd fun next hend => (run_conditional hend).1).bind fun rest => (follows_change _).after ?_
  rw [Books.leaveAll_ofScope_enterAll fun w hw => not_mem_of_mem_run hw]
  exact follows_pure _

/-- A node that is not on the path is entered for what begins there, and left again. -/
theorem goOnAt_follows (hd : Assists depth deeper unfolder) {stray : String → Obstacle} (hpath : v ∉ scope.path) :
    Follows (.ofScope depth scope) (goOnAt s deeper stray stop v) (s.unfoldFrom unfolder stray stop scope v)
      (.ofScope depth scope) := by
  unfold goOnAt Setting.unfoldFrom
  cases (g.node v).kind with
  | plain =>
    refine (follows_lift (Setting.step_climbs _)).bind fun first => (follows_change _).after ?_
    rw [Books.enter_ofScope]
    refine hd.after.bind fun rest => (follows_change _).after ?_
    rw [Books.leave_ofScope_enter hpath]
    exact follows_pure _
  | conditional ids => exact hd.choice hpath
  | branch parent condition => exact follows_throw _
  | unrecognized => exact follows_throw _

/-- What continues a structure is compiled while its branch start is still open. -/
theorem continuation_follows (hd : Assists depth deeper unfolder) {start : Fin g.size} :
    Follows (.ofScope depth scope) (continuation s deeper start stop) (s.continuation unfolder start stop scope)
      (.ofScope depth scope) := by
  unfold continuation Setting.continuation
  refine follows_recorded (follows_look.after ?_)
  cases s.pairing.mergeOf.get start with
  | none => exact follows_pure _
  | some merge =>
    simp only [Books.mem_path_ofScope, List.contains_iff_mem]
    refine follows_ite (follows_told _) (follows_ite (follows_pure _) ?_)
    split
    · exact follows_told _
    · exact goOnAt_follows hd ‹_›

/-- A lane is compiled in the scope of its fork. -/
theorem laneBody_follows (hd : Assists depth deeper unfolder) {start : Fin g.size} :
    Follows (.ofScope depth scope) (laneBody s deeper start v) (s.laneBody unfolder start scope v) (.ofScope depth scope) := by
  unfold laneBody Setting.laneBody
  refine follows_recorded (follows_look.after ?_)
  simp only [Books.mem_path_ofScope, List.contains_iff_mem]
  refine follows_ite (follows_pure _) ?_
  split
  · exact follows_told _
  · exact goOnAt_follows hd ‹_›

/-- The branches of a choice one after the other, by induction on the list of them. -/
theorem armBodies_follows (hd : Assists depth deeper unfolder) {conditional : Fin g.size} (branches : List (Fin g.size)) :
    Follows (.ofScope depth scope) (armBodies s deeper conditional branches)
      (s.armBodies unfolder conditional scope branches) (.ofScope depth scope) := by
  induction branches with
  | nil => exact follows_pure _
  | cons branch rest ih =>
    unfold armBodies Setting.armBodies
    cases (g.node branch).kind with
    | branch parent condition => exact hd.after.bind fun body => ih.bind fun others => follows_pure _
    | _ => exact follows_throw _

/-- The lanes of a fork one after the other, by induction on the list of successors. -/
theorem lanes_follows (hd : Assists depth deeper unfolder) {id : String} {start : Fin g.size} {index : Nat}
    (successors : List (Fin g.size)) :
    Follows (.ofScope depth scope) (lanes s deeper id start index successors)
      (s.lanes unfolder id start scope index successors) (.ofScope depth scope) := by
  induction successors generalizing index with
  | nil => exact follows_pure _
  | cons v rest ih => exact (laneBody_follows hd).bind fun body => ih.bind fun others => follows_pure _

/-- A choice is open, and its node on the path, up to the end of what continues it. -/
theorem choice_follows (hd : Assists depth deeper unfolder) (hpath : v ∉ scope.path) :
    Follows (.ofScope depth scope) (choice s deeper v stop) (s.choice unfolder v stop scope) (.ofScope depth scope) := by
  have hpath : v ∉ (scope.openAt v).path := hpath
  refine (follows_change _).after ((follows_change _).after ?_)
  rw [Books.openAt_ofScope, Books.enter_ofScope]
  refine (follows_lift (Setting.announce_climbs _ _)).bind fun id => (armBodies_follows hd _).bind fun bodies => ?_
  refine (follows_lift (Build.climbs_count _ _)).bind fun _ => ?_
  refine (follows_lift (Setting.submit_climbs _)).bind fun element => ?_
  refine (continuation_follows hd).bind fun rest => (follows_change _).after ((follows_change _).after ?_)
  rw [Books.leave_ofScope_enter hpath, Books.close_ofScope_openAt]
  exact follows_pure _

/-- A fork is open up to the end of what continues it. -/
theorem fork_follows (hd : Assists depth deeper unfolder) :
    Follows (.ofScope depth scope) (fork s deeper v stop) (s.fork unfolder v stop scope) (.ofScope depth scope) := by
  refine (follows_change _).after ?_
  rw [Books.openAt_ofScope]
  refine (follows_lift (Setting.announce_climbs _ _)).bind fun id => (lanes_follows hd _).bind fun lanes => ?_
  refine (follows_lift (Build.climbs_count _ _)).bind fun _ => ?_
  refine (follows_lift (Setting.submit_climbs _)).bind fun element => ?_
  refine (continuation_follows hd).bind fun rest => (follows_change _).after ?_
  rw [Books.close_ofScope_openAt]
  exact follows_pure _

/-! ## Whole segments -/

/-- Where a level is left, the books go down by one. -/
theorem descend_follows (h : depth < s.maxDepth) :
    Follows (.ofScope depth scope) (descend s v) (pure ()) (.ofScope (depth + 1) scope) := by
  refine (follows_change _).after (follows_look.after ?_)
  rw [Books.descend_ofScope, Books.ofScope, if_neg (Nat.not_lt.2 h)]
  exact follows_pure _

/-- Where no level is left, the books say so. -/
theorem descend_fails {α : Type} (h : s.maxDepth ≤ depth) {f : Unit → Clerk g.size α} {b : Books g.size} :
    Follows (.ofScope depth scope) (descend s v >>= f) (throw (.graphTooDeep (g.idAt v) s.maxDepth)) b := by
  unfold descend
  rw [bind_assoc]
  refine (follows_change _).after ?_
  rw [bind_assoc]
  refine follows_look.after ?_
  rw [Books.descend_ofScope, Books.ofScope, if_pos (Nat.lt_succ_of_le h)]
  exact follows_throw _

/-- An assistant assists if each call fits, for choices those with their node off the path. -/
theorem Assists.of_fits (h : ∀ segment stop scope, (∀ v, segment = .choice v → v ∉ scope.path) →
    Follows (.ofScope depth scope) (deeper segment stop) (unfolder segment stop scope) (.ofScope depth scope)) :
    Assists depth deeper unfolder where
  after := h _ _ _ (by rintro _ ⟨⟩)
  choice hpath := h _ _ _ (by rintro _ ⟨⟩; exact hpath)
  fork := h _ _ _ (by rintro _ ⟨⟩)

/-- A segment, with as many levels left as the books leave. -/
theorem segment_follows {levels : Nat} (h : s.maxDepth - depth = levels) :
    Assists depth (segment s levels) (s.unfold levels) := by
  induction levels generalizing depth with
  | zero =>
    refine .of_fits fun seg stop scope hfits => ?_
    unfold segment segmentBy Setting.unfold
    refine follows_recorded (follows_ite (follows_throw _) ?_)
    exact descend_fails (Nat.le_of_sub_eq_zero h)
  | succ levels ih =>
    have hd : Assists (depth + 1) (segment s levels) (s.unfold levels) := ih (by omega)
    refine .of_fits fun seg stop scope hfits => ?_
    unfold segment segmentBy Setting.unfold
    refine follows_recorded (follows_ite (follows_throw _) ?_)
    refine (descend_follows (by omega)).after ?_
    rw [← Books.ascend_ofScope]
    cases seg with
    | after v => exact (sequence_follows hd).and_change .ascend
    | choice v => exact (choice_follows hd (hfits v rfl)).and_change .ascend
    | fork v => exact (fork_follows hd).and_change .ascend

variable (s) in
/-- A plan from its entry on. The books that it comes to are left open: a plain entry stays on the path. -/
theorem elementsFrom_follows (entry : Fin g.size) :
    ∃ b, Follows {} (elementsFrom s entry) (s.unfoldEntry entry) b := by
  have hd : Assists 0 (segment s s.maxDepth) (s.unfold s.maxDepth) := segment_follows (Nat.sub_zero _)
  have hnothing : ({} : Books g.size) = .ofScope 0 {} := rfl
  rw [hnothing]
  unfold elementsFrom Setting.unfoldEntry
  cases (g.node entry).kind with
  | conditional ids => exact ⟨_, hd.choice List.not_mem_nil⟩
  | plain =>
    refine ⟨.ofScope 0 { path := [entry] }, ?_⟩
    refine (follows_lift (Setting.step_climbs _)).bind fun first => (follows_change _).after ?_
    rw [Books.enter_ofScope]
    exact hd.after.bind fun rest => follows_pure _
  | _ => exact ⟨{}, follows_throw _⟩

variable (s) in
/-- Whole plans are compiled alike. -/
theorem plan_follows : ∃ b, Follows {} (plan s) s.plan b := by
  unfold plan Setting.plan
  cases hentry : g.entry with
  | error e => exact ⟨{}, follows_throw e⟩
  | ok entry =>
    obtain ⟨b, hb⟩ := elementsFrom_follows s entry
    have hpure : (liftM (Except.ok entry : Except CompileError (Fin g.size)) : Build (Fin g.size)) = pure entry := rfl
    rw [hpure, pure_bind]
    refine ⟨b, (follows_lift (Build.climbs_pure entry)).after ((follows_lift (Build.climbs_tell _)).bind fun _ => ?_)⟩
    exact hb.bind fun steps => (follows_lift (Build.climbs_tell _)).bind fun _ => follows_pure _

end Clerk

/-- A compilation can be done with books, and the books are balanced: whatever call of it ends well has left depth, open branch
starts and path as it found them, and neither the ids nor the elements that are counted have become fewer. -/
theorem books_balanced (c : Compiler) (flowId : String) (g : Graph) :
    c.compilation flowId g = ⟨(c.booked flowId g).1, (c.booked flowId g).2.progress.events.reverse⟩ ∧
      ∀ e ∈ (c.booked flowId g).2.entries, e.left.books = e.found.books ∧
        e.found.progress.nextId ≤ e.left.progress.nextId ∧ e.found.progress.emitted ≤ e.left.progress.emitted := by
  obtain ⟨b, hfollows⟩ := Clerk.plan_follows (c.setting flowId g)
  have hwent := hfollows {} (c.booked flowId g).1 (c.booked flowId g).2 rfl rfl
  constructor
  · rw [Compiler.compilation, hwent.made]
  · intro e he
    have hbalanced := (hwent.balanced e he).resolve_left List.not_mem_nil
    exact ⟨hbalanced.books, hbalanced.nextId, hbalanced.emitted⟩

/-- Calls in the compilation of `Flow.retry`, with an interceptor that wraps steps: the choice, the parallel element inside it, one
of the lanes, and what continues the parallel element. -/
theorem books_balanced_retry : ∃ g, Graph.build .standard Flow.retry.nodes Flow.retry.edges = .ok g ∧
    ∃ b, g.idAt b = "B" ∧ ∃ c, g.idAt c = "C" ∧ ∃ p, g.idAt p = "P" ∧ ∃ q, g.idAt q = "Q" ∧
      ∀ call ∈ [Call.segment (.choice c) none, .segment (.fork p) (some b), .lane p q, .continuation p (some b)],
        ∃ e ∈ (Compiler.booked { chain := [.wrap "w" 0] } "retry" g).2.entries, e.call = call ∧
          e.left.books = e.found.books ∧ e.found.progress.nextId ≤ e.left.progress.nextId ∧
          e.found.progress.emitted ≤ e.left.progress.emitted := by
  obtain ⟨g, hg, b, hb, c, hc, p, hp, q, hq, hcalls⟩ : ∃ g, Graph.build .standard Flow.retry.nodes Flow.retry.edges = .ok g ∧
      ∃ b, g.idAt b = "B" ∧ ∃ c, g.idAt c = "C" ∧ ∃ p, g.idAt p = "P" ∧ ∃ q, g.idAt q = "Q" ∧
        ∀ call ∈ [Call.segment (.choice c) none, .segment (.fork p) (some b), .lane p q, .continuation p (some b)],
          ∃ e ∈ (Compiler.booked { chain := [.wrap "w" 0] } "retry" g).2.entries, e.call = call := by
    decide +kernel
  refine ⟨g, hg, b, hb, c, hc, p, hp, q, hq, fun call hcall => ?_⟩
  obtain ⟨e, he, rfl⟩ := hcalls call hcall
  exact ⟨e, he, rfl, (books_balanced _ "retry" g).2 e he⟩

end FlowPlan
