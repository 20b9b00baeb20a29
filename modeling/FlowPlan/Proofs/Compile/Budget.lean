import FlowPlan.Proofs.Compile.Depth
import FlowPlan.Proofs.Compile.Spines
import Mathlib.Algebra.GroupWithZero.Nat

/-!
# What a compilation counts

A compilation counts a step before it makes it, and a choice or parallel element when its bodies are there. So each part of it
counts as many elements as it returns (`Build.Charges`), those of all bodies included (`Element.tally`). This holds for every
setting at once: where a plan unfolds a graph, a compilation with other limits or interceptors counts the same elements in the
same order, or ends before (`Unfolds.charged`).

Main statement: a plan stays within both limits of its compilation (`plan_within_limits`).
-/

namespace FlowPlan

open FlowPlan.Graph

/-! ## The size of a plan -/

namespace Element

/-- How many elements a sequence has, with those of all bodies. -/
def tally : Fold Nat where
  nil := 0
  step rest := rest + 1
  choice bodies rest := bodies.sum + rest + 1
  parallel bodies rest := bodies.sum + rest + 1

/-- A sequence takes a level for each choice or parallel element on the way to its innermost body. -/
theorem nesting_le_of_below_le (es : List Element) : ∀ n, (descent.ofBody es).below ≤ n → nesting.ofBody es ≤ n := by
  induction es using body_induction with
  | nil => exact fun n _ => Nat.zero_le n
  | cons element rest ihbodies ihrest =>
    intro n hn
    cases element with
    | sequential node => exact ihrest n hn
    | leaf node => exact ihrest n hn
    | choice id node arms otherwise =>
      obtain ⟨m, rfl⟩ := Nat.exists_eq_add_one.2 (Nat.lt_of_lt_of_le below_choice_pos hn)
      obtain ⟨hbodies, hrest⟩ := below_choice_le_iff.1 hn
      have hinner : most ((bodiesOf arms otherwise).map nesting.ofBody) ≤ m := by
        refine most_le_iff.2 (List.forall_mem_map.2 fun body hb => ihbodies body hb m ?_)
        exact Nat.le_of_succ_le (hbodies body hb)
      have hbehind := ihrest m (Nat.le_trans (Nat.le_add_left ..) hrest)
      rw [Fold.ofBody_choice]
      exact Nat.max_le.2 ⟨by omega, Nat.le_succ_of_le hbehind⟩
    | parallel id lanes =>
      obtain ⟨m, rfl⟩ := Nat.exists_eq_add_one.2 (Nat.lt_of_lt_of_le below_parallel_pos hn)
      obtain ⟨hbodies, hrest⟩ := below_parallel_le_iff.1 hn
      have hinner : most (lanes.map fun l => nesting.ofBody l.body) ≤ m := by
        refine most_le_iff.2 (List.forall_mem_map.2 fun l hl => ?_)
        have hbody := List.mem_map_of_mem (f := Lane.body) hl
        exact ihbodies l.body hbody m (Nat.le_trans (Nat.le_add_left ..) (hbodies l.body hbody))
      have hbehind := ihrest m (Nat.le_trans (Nat.le_add_left ..) hrest)
      rw [Fold.ofBody_parallel]
      exact Nat.max_le.2 ⟨by omega, Nat.le_succ_of_le hbehind⟩

end Element

/-- How many elements a plan has, at all depths. -/
def Route.size (r : Route) : Nat :=
  Element.tally.ofBody r.steps

section Tally

variable {g : Graph}

/-- A step is one element. -/
theorem tally_stepOn (v : Fin g.size) (rest : List Element) :
    Element.tally.ofBody (g.stepOn v :: rest) = 1 + Element.tally.ofBody rest := by
  rw [Nat.add_comm]
  unfold Graph.stepOn
  split <;> rfl

/-- A parallel element is one element more than its lanes and what follows it. -/
theorem tally_parallel {id : String} {lanes : List (LaneBody g.size)} {rest : List Element} :
    Element.tally.ofBody (.parallel id (LaneBody.lanes id 0 lanes) :: rest) =
      (lanes.map fun l => Element.tally.ofBody l.body).sum + Element.tally.ofBody rest + 1 := by
  have hlanes : (LaneBody.lanes id 0 lanes).map (fun l => Element.tally.ofBody l.body) =
      lanes.map fun l => Element.tally.ofBody l.body := by
    change (LaneBody.lanes id 0 lanes).map (Element.tally.ofBody ∘ Lane.body) = _
    rw [← List.map_map, Element.map_body_lanes, List.map_map]
    rfl
  rw [Element.Fold.ofBody_parallel, hlanes]
  rfl

namespace Graph.Indexes

variable {catalog : NodeCatalog} {nodes : List Flow.Node} {edges : List Flow.Edge}

/-- What the bodies of a choice come to is what those of its branches come to, since none of them is left out. -/
theorem sum_bodiesOf (h : Indexes catalog nodes edges g) {v : Fin g.size} {ids : List String} {bodies : List (ArmBody g.size)}
    (hk : (g.node v).kind = .conditional ids) (hbranches : bodies.map ArmBody.branch = g.successorsAt v)
    (hkinds : ∀ b ∈ bodies, ∃ parent, (g.node b.branch).kind = .branch parent b.condition) (f : List Element → Nat) :
    ((Element.bodiesOf (Setting.armsOf (bodies.map (ArmBody.named g)))
      (Setting.otherwiseOf (bodies.map (ArmBody.named g)))).map f).sum = (bodies.map fun b => f b.body).sum := by
  have hperm := Setting.bodies_perm (h.length_unconditional hk hbranches hkinds)
  rw [List.map_map] at hperm
  rw [(hperm.map f).sum_nat, List.map_map]
  rfl

/-- A choice is one element more than its bodies and what follows it: no body is lost between its arms and the otherwise branch.
-/
theorem tally_choiceOn (h : Indexes catalog nodes edges g) {v : Fin g.size} {ids : List String} {id : String}
    {bodies : List (ArmBody g.size)} {rest : List Element} (hk : (g.node v).kind = .conditional ids)
    (hbranches : bodies.map ArmBody.branch = g.successorsAt v)
    (hkinds : ∀ b ∈ bodies, ∃ parent, (g.node b.branch).kind = .branch parent b.condition) :
    Element.tally.ofBody (g.choiceOn id v bodies :: rest) =
      (bodies.map fun b => Element.tally.ofBody b.body).sum + Element.tally.ofBody rest + 1 := by
  rw [choiceOn, Element.Fold.ofBody_choice, ← h.sum_bodiesOf hk hbranches hkinds]
  rfl

end Graph.Indexes

end Tally

/-! ## Charges -/

namespace Build

/-- A part that ends well counts `n` elements and keeps the limit. The limit stops it only where `n` elements go over it. -/
structure Charges {α : Type} (limit n : Nat) (m : Build α) : Prop where
  returns : ∀ p a q, m.Returns p a q → q.emitted = p.emitted + n ∧ (p.emitted ≤ limit → q.emitted ≤ limit)
  stops : ∀ p node l q, m.run.run p = (.error (.planTooLarge node l), q) → l = limit ∧ limit < p.emitted + n

variable {α β : Type} {limit n n' : Nat} {m : Build α} {k : α → Build β}

theorem charges_pure (a : α) : Charges limit 0 (pure a) where
  returns := by
    rintro p b q h
    obtain ⟨-, rfl⟩ := returns_pure.1 h
    exact ⟨rfl, id⟩
  stops := nofun

/-- A part fails, and not for the limit of the elements. -/
def Aborts {α : Type} (m : Build α) : Prop :=
  ∀ p, ∃ e q, m.run.run p = (.error e, q) ∧ ∀ node l, e ≠ .planTooLarge node l

/-- An error other than that of the limit aborts a part, whatever has been counted. -/
theorem aborts_throw {e : CompileError} (h : ∀ node l, e ≠ .planTooLarge node l) : (throw e : Build α).Aborts :=
  fun p => ⟨e, p, rfl, h⟩

/-- What follows a part that aborts is not run. -/
theorem Aborts.bind (h : m.Aborts) (k : α → Build β) : (m >>= k).Aborts := by
  intro p
  obtain ⟨e, q, hrun, he⟩ := h p
  exact ⟨e, q, by rw [run_bind, hrun], he⟩

/-- What a part counts that does not end well is of no account. -/
theorem Aborts.charges (h : m.Aborts) (limit n : Nat) : Charges limit n m where
  returns := by
    intro p a q hr
    obtain ⟨e, r, hrun, -⟩ := h p
    cases hrun.symm.trans hr
  stops := by
    intro p node l q hr
    obtain ⟨e, r, hrun, he⟩ := h p
    cases hrun.symm.trans hr
    exact absurd rfl (he node l)

theorem charges_tell (event : Event) : Charges limit 0 (tell event) where
  returns := by
    rintro p _ _ ⟨⟩
    exact ⟨rfl, id⟩
  stops := nofun

theorem charges_nextNumber : Charges limit 0 nextNumber where
  returns := by
    rintro p _ _ ⟨⟩
    exact ⟨rfl, id⟩
  stops := nofun

/-- To count an element costs one, and stops only where the limit is passed. -/
theorem charges_count (limit : Nat) (node : String) : Charges limit 1 (count limit node) where
  returns := by
    intro p _ q h
    unfold Returns at h
    rw [run_count] at h
    split at h
    · cases h
    · rename_i hkept
      cases h
      exact ⟨rfl, fun _ => Nat.not_lt.1 hkept⟩
  stops := by
    intro p node' l q h
    rw [run_count] at h
    split at h
    · rename_i hover
      cases h
      exact ⟨rfl, hover⟩
    · cases h

/-- Two parts one after the other count what both count. -/
theorem Charges.bind (hm : Charges limit n m) (hk : ∀ a, Charges limit n' (k a)) : Charges limit (n + n') (m >>= k) where
  returns := by
    intro p b r h
    obtain ⟨a, q, ha, hb⟩ := returns_bind.1 h
    obtain ⟨hcount, hkept⟩ := hm.returns p a q ha
    obtain ⟨hcount', hkept'⟩ := (hk a).returns q b r hb
    exact ⟨by omega, fun hp => hkept' (hkept hp)⟩
  stops := by
    intro p node l r h
    rw [run_bind] at h
    rcases hrun : m.run.run p with ⟨e | a, q⟩ <;> rw [hrun] at h
    · cases h
      obtain ⟨hl, hover⟩ := hm.stops p node l r hrun
      exact ⟨hl, by omega⟩
    · obtain ⟨hcount, -⟩ := hm.returns p a q hrun
      obtain ⟨hl, hover⟩ := (hk a).stops q node l r h
      exact ⟨hl, by omega⟩

theorem Charges.of_eq (h : Charges limit n m) (hn : n = n') : Charges limit n' m :=
  hn ▸ h

end Build

namespace Setting

open Build Element

variable {g : Graph} {s : Setting g} {deeper : Unfolder g}

/-- Interceptors cost nothing, however many elements they add: what they return is not counted. -/
theorem submit_charges (element : Element) : Charges s.limit 0 (s.submit element) :=
  (charges_tell _).bind fun _ => charges_pure _

/-- An id costs nothing. -/
theorem announce_charges (kind : String) (v : Fin g.size) : Charges s.limit 0 (s.announce kind v) :=
  (charges_nextNumber.bind fun _ => charges_pure _).bind fun _ => (charges_tell _).bind fun _ => charges_pure _

theorem step_charges (v : Fin g.size) : Charges s.limit 1 (s.step v) :=
  (charges_count _ _).bind fun _ => submit_charges _

/-- A node that is refused for its shape aborts a part. -/
theorem unsupported_aborts {α : Type} (v : Fin g.size) (obstacle : Obstacle) :
    (throw (unsupported v obstacle) : Build α).Aborts :=
  aborts_throw nofun

/-- Where no level is left, every segment aborts. -/
theorem unfold_zero_aborts (s : Setting g) (segment : Segment g.size) (stop : Option (Fin g.size)) (scope : Scope g.size) :
    (s.unfold 0 segment stop scope).Aborts := by
  cases hbare : isBareChoice segment with
  | true =>
    rw [unfold_bare s stop scope hbare]
    exact unsupported_aborts _ _
  | false =>
    rw [unfold_zero s stop scope hbare]
    exact aborts_throw nofun

variable {v w : Fin g.size} {stop : Option (Fin g.size)} {scope : Scope g.size} {n : Nat}

/-- What a sequence counts at every depth is counted where it is unfolded. -/
theorem unfold_after_charges (h : ∀ depth, Charges s.limit n (s.sequence (s.unfold depth) v stop scope)) (depth : Nat) :
    Charges s.limit n (s.unfold depth (.after v) stop scope) := by
  cases depth with
  | zero => exact (unfold_zero_aborts s _ stop scope).charges _ n
  | succ depth => exact h depth

/-- A choice costs one more than its bodies and what continues it. -/
theorem choice_charges {arms rest : Nat}
    (harms : Charges s.limit arms (s.armBodies deeper v ((scope.openAt v).enter v) (g.successorsAt v)))
    (hrest : Charges s.limit rest (s.continuation deeper v stop ((scope.openAt v).enter v))) :
    Charges s.limit (arms + rest + 1) (s.choice deeper v stop scope) := by
  refine ((announce_charges "choice" v).bind fun _ => harms.bind fun _ => (charges_count _ _).bind fun _ =>
    (submit_charges _).bind fun _ => hrest.bind fun _ => charges_pure _).of_eq ?_
  omega

/-- A parallel element costs one more than its lanes and what continues it. -/
theorem fork_charges {rest inside : Nat}
    (hlanes : ∀ id, Charges s.limit inside (s.lanes deeper id v (scope.openAt v) 0 (g.successorsAt v)))
    (hrest : Charges s.limit rest (s.continuation deeper v stop (scope.openAt v))) :
    Charges s.limit (inside + rest + 1) (s.fork deeper v stop scope) := by
  refine ((announce_charges "parallel" v).bind fun id => (hlanes id).bind fun _ => (charges_count _ _).bind fun _ =>
    (submit_charges _).bind fun _ => hrest.bind fun _ => charges_pure _).of_eq ?_
  omega

/-! ## Sequences -/

/-- A sequence whose run ends at once is what stands at the end of the run. -/
theorem sequence_of_ending {ending : RunEnd g.size} (hrun : g.run stop scope.path v = ([], ending)) :
    s.sequence deeper v stop scope = atEnd deeper stop scope ending := by
  have hscope : scope.enterAll [] = scope := rfl
  rw [sequence_eq, hrun, hscope]
  simp only [steps, pure_bind, List.nil_append, bind_pure]

/-- A sequence goes on with a plain node as from there. -/
theorem sequence_of_plain (hs : g.successorsAt v = [w]) (hstop : stop ≠ some w) (hpath : w ∉ scope.path)
    (hk : (g.node w).kind = .plain) : s.sequence deeper v stop scope =
      (do let first ← s.step w; let rest ← s.sequence deeper w stop (scope.enter w); return first :: rest) := by
  have hrun : g.run stop scope.path v =
      (w :: (g.run stop (scope.enter w).path w).1, (g.run stop (scope.enter w).path w).2) := by
    rw [Graph.run, hs]
    simp only [if_neg hstop, if_neg (mt List.contains_iff_mem.1 hpath), hk]
    rfl
  simp only [sequence_eq, hrun, steps, bind_assoc, pure_bind, List.cons_append, Scope.enterAll_cons]

/-! ## Charges of what is unfolded -/

/-- Where a link leads to a node, a compilation counts the elements that a plan has there. -/
inductive Meets (s : Setting g) (v : Fin g.size) (stop : Option (Fin g.size)) (scope : Scope g.size) : List Element → Prop
  | halted : stop = some v → Meets s v stop scope []
  | looped : stop ≠ some v → v ∈ scope.path → Meets s v stop scope []
  | plain {es n} : stop ≠ some v → v ∉ scope.path → (g.node v).kind = .plain → tally.ofBody es = 1 + n →
      (∀ depth, Charges s.limit n (s.sequence (s.unfold depth) v stop (scope.enter v))) → Meets s v stop scope es
  | conditional {es ids} : stop ≠ some v → v ∉ scope.path → (g.node v).kind = .conditional ids →
      (∀ depth, Charges s.limit (tally.ofBody es) (s.unfold depth (.choice v) stop scope)) → Meets s v stop scope es

/-- At a place a compilation counts the elements that a plan has there. -/
def Charged (s : Setting g) : Place g.size → Option (Fin g.size) → Scope g.size → List Element → Prop
  | .into v, stop, scope, es => s.Meets v stop scope es
  | .after v, stop, scope, es => ∀ depth, Charges s.limit (tally.ofBody es) (s.sequence (s.unfold depth) v stop scope)
  | .behind v, stop, scope, es => ∀ depth, Charges s.limit (tally.ofBody es) (s.continuation (s.unfold depth) v stop scope)

variable {es : List Element}

/-- A lane and a continuation begin in the same way. -/
theorem Meets.charges (h : s.Meets v stop scope es) (event : Event) (stray : String → Obstacle) (depth : Nat) :
    Charges s.limit (tally.ofBody es) (if stop = some v then return []
      else if scope.path.contains v then do
        Build.tell event
        return []
      else s.unfoldFrom (s.unfold depth) stray stop scope v) := by
  cases h with
  | halted hstop =>
    rw [if_pos hstop]
    exact charges_pure _
  | looped hstop hpath =>
    rw [if_neg hstop, if_pos (List.contains_iff_mem.2 hpath)]
    exact (charges_tell _).bind fun _ => charges_pure _
  | plain hstop hpath hk hn hrest =>
    rw [if_neg hstop, if_neg (mt List.contains_iff_mem.1 hpath), unfoldFrom, hk, hn]
    exact (step_charges v).bind fun _ => (unfold_after_charges hrest depth).bind fun _ => charges_pure _
  | conditional hstop hpath hk hchoice =>
    rw [if_neg hstop, if_neg (mt List.contains_iff_mem.1 hpath), unfoldFrom, hk]
    exact hchoice depth

/-- A sequence that goes on with one node counts what is unfolded where the link leads. -/
theorem Meets.sequence (h : s.Meets w stop scope es) (hs : g.successorsAt v = [w]) (depth : Nat) :
    Charges s.limit (tally.ofBody es) (s.sequence (s.unfold depth) v stop scope) := by
  cases h with
  | halted hstop =>
    have hrun : g.run stop scope.path v = ([], .done) := by
      rw [Graph.run, hs]
      simp only [if_pos hstop]
    rw [sequence_of_ending hrun]
    exact charges_pure _
  | looped hstop hpath =>
    have hrun : g.run stop scope.path v = ([], .loop v w) := by
      rw [Graph.run, hs]
      simp only [if_neg hstop, if_pos (List.contains_iff_mem.2 hpath)]
    rw [sequence_of_ending hrun]
    exact (charges_tell _).bind fun _ => charges_pure _
  | plain hstop hpath hk hn hrest =>
    rw [sequence_of_plain hs hstop hpath hk, hn]
    exact (step_charges w).bind fun _ => (hrest depth).bind fun _ => charges_pure _
  | conditional hstop hpath hk hchoice =>
    have hrun : g.run stop scope.path v = ([], .conditional w) := by
      rw [Graph.run, hs]
      simp only [if_neg hstop, if_neg (mt List.contains_iff_mem.1 hpath), hk]
    rw [sequence_of_ending hrun]
    exact hchoice depth

/-- The bodies of a choice cost what they have in elements, by induction on the list of them. -/
theorem armBodies_charges {bodies : List (ArmBody g.size)} (depth : Nat)
    (h : ∀ b ∈ bodies, s.Charged (.after b.branch) (g.pairing.mergeOf.get v) scope b.body) :
    Charges s.limit (bodies.map fun b => tally.ofBody b.body).sum
      (s.armBodies (s.unfold depth) v scope (bodies.map ArmBody.branch)) := by
  induction bodies with
  | nil => exact charges_pure _
  | cons b rest ih =>
    obtain ⟨hbody, hrest⟩ := List.forall_mem_cons.1 h
    rw [List.map_cons, List.map_cons, List.sum_cons]
    unfold armBodies
    rw [s.pairing_eq]
    split
    · exact (unfold_after_charges hbody depth).bind fun _ => (ih hrest).bind fun _ => charges_pure _
    · exact (unsupported_aborts _ _).charges _ _

theorem lanes_charges {lanes : List (LaneBody g.size)} (depth : Nat) (id : String) (index : Nat)
    (h : ∀ l ∈ lanes, s.Meets l.successor (g.pairing.mergeOf.get v) scope l.body) :
    Charges s.limit (lanes.map fun l => tally.ofBody l.body).sum
      (s.lanes (s.unfold depth) id v scope index (lanes.map LaneBody.successor)) := by
  induction lanes generalizing index with
  | nil => exact charges_pure _
  | cons l rest ih =>
    obtain ⟨hbody, hrest⟩ := List.forall_mem_cons.1 h
    have hlane : Charges s.limit (tally.ofBody l.body) (s.laneBody (s.unfold depth) v scope l.successor) := by
      unfold laneBody
      rw [s.pairing_eq]
      exact hbody.charges _ _ depth
    rw [List.map_cons, List.map_cons, List.sum_cons]
    exact hlane.bind fun _ => (ih (index + 1) hrest).bind fun _ => charges_pure _

end Setting

variable {catalog : NodeCatalog} {nodes : List Flow.Node} {edges : List Flow.Edge} {g : Graph}

namespace Setting

variable {s : Setting g} {v merge : Fin g.size} {stop : Option (Fin g.size)} {scope : Scope g.size} {es rest : List Element}

/-- A choice is counted with its bodies and what continues it. -/
theorem meets_choiceOn (hg : Indexes catalog nodes edges g) {ids : List String} {id : String} {bodies : List (ArmBody g.size)}
    (hstop : stop ≠ some v) (hpath : v ∉ scope.path) (hk : (g.node v).kind = .conditional ids) (hs : g.successorsAt v ≠ [])
    (hbranches : bodies.map ArmBody.branch = g.successorsAt v)
    (hkinds : ∀ b ∈ bodies, ∃ parent, (g.node b.branch).kind = .branch parent b.condition)
    (hbodies : ∀ b ∈ bodies, s.Charged (.after b.branch) (g.pairing.mergeOf.get v) ((scope.openAt v).enter v) b.body)
    (hrest : s.Charged (.behind v) stop ((scope.openAt v).enter v) rest) :
    s.Meets v stop scope (g.choiceOn id v bodies :: rest) := by
  refine .conditional hstop hpath hk fun depth => ?_
  rw [hg.tally_choiceOn hk hbranches hkinds]
  cases depth with
  | zero => exact (unfold_zero_aborts s _ stop scope).charges _ _
  | succ depth =>
    rw [unfold_choice s stop scope hs]
    refine choice_charges ?_ (hrest depth)
    rw [← hbranches]
    exact armBodies_charges depth hbodies

/-- A parallel element is counted with its lanes and what continues it. -/
theorem charged_fork {id : String} {lanes : List (LaneBody g.size)} (hmany : 1 < (g.successorsAt v).length)
    (hsuccessors : lanes.map LaneBody.successor = g.successorsAt v)
    (hlanes : ∀ l ∈ lanes, s.Meets l.successor (g.pairing.mergeOf.get v) (scope.openAt v) l.body)
    (hrest : s.Charged (.behind v) stop (scope.openAt v) rest) :
    s.Charged (.after v) stop scope (.parallel id (LaneBody.lanes id 0 lanes) :: rest) := by
  intro depth
  rw [sequence_of_ending (run_of_fork hmany), tally_parallel]
  change Build.Charges _ _ (s.unfold depth (.fork v) stop scope)
  cases depth with
  | zero => exact (unfold_zero_aborts s _ stop scope).charges _ _
  | succ depth =>
    rw [unfold_fork]
    refine fork_charges (fun id => ?_) (hrest depth)
    rw [← hsuccessors]
    exact lanes_charges depth id 0 hlanes

/-- What is resumed is counted behind the element. -/
theorem Meets.resumes (h : s.Meets merge stop scope es) (hm : g.pairing.mergeOf.get v = some merge)
    (hopen : 1 < (g.pairing.startsOf.get merge).length → scope.opened.head? = some v) : s.Charged (.behind v) stop scope es := by
  intro depth
  unfold continuation
  rw [s.pairing_eq, hm]
  simp only
  rw [if_neg (by simpa using hopen)]
  exact h.charges _ _ depth

end Setting

/-- Whatever a plan unfolds at a place is counted there, under every setting. -/
theorem Unfolds.charged (hg : Indexes catalog nodes edges g) {s : Setting g} {place : Place g.size}
    {first stop : Option (Fin g.size)} {path : List (Fin g.size)} {es : List Element}
    (h : Unfolds g place first stop path es) (scope : Scope g.size) (hfirst : scope.opened.head? = first)
    (hpath : scope.path = path) : s.Charged place stop scope es := by
  induction h generalizing scope with
  | halted => exact .halted rfl
  | @looped v first stop path hm =>
    by_cases hstop : stop = some v
    · exact .halted hstop
    · exact .looped hstop (hpath ▸ hm)
  | @step v first stop path rest hstop hnot hk _ ih =>
    exact .plain hstop (hpath ▸ hnot) hk (tally_stepOn v rest) (ih (scope.enter v) hfirst (congrArg (v :: ·) hpath))
  | @choice v first stop path ids id bodies rest hstop hnot hk hsome hbranches hkinds _ _ ihbodies ihrest =>
    have hinner : ((scope.openAt v).enter v).opened.head? = first.or (some v) := hfirst ▸ Setting.head?_openAt scope v
    exact Setting.meets_choiceOn hg hstop (hpath ▸ hnot) hk hsome hbranches hkinds
      (fun b hb => ihbodies b hb _ hinner (congrArg (v :: ·) hpath)) (ihrest _ hinner (congrArg (v :: ·) hpath))
  | @ends v first stop path hs =>
    intro depth
    have hrun : g.run stop scope.path v = ([], .done) := by rw [Graph.run, hs]
    rw [Setting.sequence_of_ending hrun]
    exact Build.charges_pure _
  | follows hs _ ih => exact (ih scope hfirst hpath).sequence hs
  | @fork v first stop path id lanes rest hmany hsuccessors _ _ ihlanes ihrest =>
    have hinner : (scope.openAt v).opened.head? = first.or (some v) := hfirst ▸ Setting.head?_openAt scope v
    exact Setting.charged_fork hmany hsuccessors (fun l hl => ihlanes l hl _ hinner hpath) (ihrest _ hinner hpath)
  | apart hm =>
    intro depth
    unfold Setting.continuation
    rw [s.pairing_eq, hm]
    exact Build.charges_pure _
  | left hm hshared hne =>
    intro depth
    unfold Setting.continuation
    rw [s.pairing_eq, hm]
    simp only
    rw [if_pos (by simpa using ⟨hshared, hfirst ▸ hne⟩)]
    exact (Build.charges_tell _).bind fun _ => Build.charges_pure _
  | resumes hm hopen _ ih => exact (ih scope hfirst hpath).resumes hm fun hshared => hfirst ▸ hopen hshared

namespace Setting

open Build Element

variable {s : Setting g} {entry : Fin g.size}

/-- A plan costs what it has in elements from its entry on. -/
theorem unfoldEntry_charges {es : List Element} (h : s.Meets entry none {} es) :
    Charges s.limit (tally.ofBody es) (s.unfoldEntry entry) := by
  unfold unfoldEntry
  cases h with
  | halted hstop => cases hstop
  | looped _ hpath => cases hpath
  | plain _ _ hk hn hrest =>
    rw [hk, hn]
    exact (step_charges entry).bind fun _ => (unfold_after_charges hrest s.maxDepth).bind fun _ => charges_pure _
  | conditional _ _ hk hchoice =>
    rw [hk]
    exact hchoice s.maxDepth

/-- A compilation counts nothing but what it unfolds. -/
theorem plan_charges (hentry : g.entry = .ok entry) {n : Nat} (h : Charges s.limit n (s.unfoldEntry entry)) :
    Charges s.limit n s.plan := by
  have hpure : (liftM (Except.ok entry : Except CompileError (Fin g.size)) : Build (Fin g.size)) = pure entry := rfl
  unfold plan
  rw [hentry, hpure, pure_bind, ← Nat.zero_add n]
  exact (charges_tell _).bind fun _ => h.bind fun _ => (charges_tell _).bind fun _ => charges_pure _

end Setting

namespace Compiler

variable {c : Compiler} {flowId : String} {route : Route}

/-- With every compiler, as many elements are counted on a graph as a plan of it has. -/
theorem charges_of_compileGraph (hg : Indexes catalog nodes edges g) (hc : c.chain = [])
    (hr : c.compileGraph flowId g = .ok route) (c' : Compiler) (flowId' : String) :
    Build.Charges (c'.setting flowId' g).limit route.size (c'.setting flowId' g).plan := by
  obtain ⟨entry, hentry, hunfolds⟩ := unfolds_of_compileGraph hc hr
  have hmeets := hunfolds.charged hg (s := c'.setting flowId' g) {} rfl rfl
  exact Setting.plan_charges hentry (Setting.unfoldEntry_charges hmeets)

/-- A plan that was compiled without interceptors is within the limit on elements. -/
theorem size_le_limit (hg : Indexes catalog nodes edges g) (hc : c.chain = []) (hr : c.compileGraph flowId g = .ok route) :
    route.size ≤ (c.setting flowId g).limit := by
  have hcharges := charges_of_compileGraph hg hc hr c flowId
  obtain ⟨q, hplan⟩ : ∃ q, (c.setting flowId g).plan.Returns {} route q := ⟨_, Prod.ext hr rfl⟩
  obtain ⟨hcount, hkept⟩ := hcharges.returns {} route q hplan
  have hsize := hkept (Nat.zero_le _)
  rw [hcount, Nat.zero_add] at hsize
  exact hsize

end Compiler

/-- A plan, compiled without interceptors, stays within both limits: counted at all depths, it has no more elements than the graph
has nodes for each level of the bound on the depth, and no more than a machine word counts, and its choices and parallel elements
are nested no deeper than the bound. -/
theorem plan_within_limits (hg : Graph.build catalog nodes edges = .ok g) {c : Compiler} (hc : c.chain = []) {flowId : String}
    {route : Route} (hr : c.compileGraph flowId g = .ok route) :
    route.size ≤ min (g.size * max c.maxDepth 1) (Nat.pow 2 64 - 1) ∧ route.nesting ≤ c.maxDepth := by
  refine ⟨Compiler.size_le_limit (indexes_of_build hg) hc hr, ?_⟩
  obtain ⟨entry, p, q, -, hsteps⟩ := Compiler.unfoldEntry_of_compileGraph hc hr
  have htotal := Setting.unfoldEntry_ensures hc p route.steps q hsteps
  exact Element.nesting_le_of_below_le _ _ (Nat.le_trans (Nat.le_add_left ..) htotal)

/-- The plan of `Flow.retry`, whose nine nodes may make 45 elements at a depth of five. -/
theorem plan_within_limits_retry : ∃ g route, Graph.build .standard Flow.retry.nodes Flow.retry.edges = .ok g ∧ g.size = 9 ∧
    Compiler.compileGraph { maxDepth := 5 } "retry" g = .ok route ∧
      route.size ≤ min (9 * max 5 1) (Nat.pow 2 64 - 1) ∧ route.nesting ≤ 5 := by
  obtain ⟨g, hg, hsize, route, hr⟩ : ∃ g, Graph.build .standard Flow.retry.nodes Flow.retry.edges = .ok g ∧
      g.size = 9 ∧ ∃ route, Compiler.compileGraph { maxDepth := 5 } "retry" g = .ok route := by
    decide +kernel
  obtain ⟨hcount, hnesting⟩ := plan_within_limits hg rfl hr
  exact ⟨g, route, hg, hsize, hr, hsize ▸ hcount, hnesting⟩

end FlowPlan
