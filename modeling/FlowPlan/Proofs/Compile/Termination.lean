import FlowPlan.Proofs.Compile.Frames
import FlowPlan.Proofs.Compile.Spines
import Mathlib.Data.Fintype.Card

/-!
# How deep a compilation can get

The nodes that are not on the path bound the depth. A branch never gets on a path itself: it is used up together with its
conditional node (`Graph.holder`). Some calls enter no node, such as that of a sequence for the fan-out at its end. `Frame.room`
counts the nodes that are not used up twice, and adds up to two for the segment, so that it falls with every call
(`Frame.Calls.room_lt`).

Main statement: the depth of a compilation is at most twice the number of nodes, with loops or without
(`ends_within_twice_size`).
-/

namespace FlowPlan

open FlowPlan.Graph

/-! ## Nodes that are not used up -/

namespace Graph

variable (g : Graph)

/-- The node that uses up a position when it is entered: a branch goes with its conditional node. -/
def holder (v : Fin g.size) : Fin g.size :=
  if (g.node v).isBranch then (g.predecessorsAt v).headD v else v

/-- The positions that a path has not used up. -/
def unused (path : List (Fin g.size)) : Finset (Fin g.size) :=
  Finset.univ.filter fun v => g.holder v ∉ path

variable {g} {path : List (Fin g.size)} {v : Fin g.size}

/-- A position is unused while its holder is off the path. -/
theorem mem_unused : v ∈ g.unused path ↔ g.holder v ∉ path := by
  rw [unused, Finset.mem_filter]
  exact and_iff_right (Finset.mem_univ v)

/-- Only branches are held by another node. -/
theorem holder_eq_self (h : (g.node v).isBranch = false) : g.holder v = v := by
  rw [holder, h]
  rfl

/-- At first, all positions are unused. -/
theorem card_unused_nil : (g.unused []).card = g.size := by
  rw [unused, Finset.filter_true_of_mem fun v _ => List.not_mem_nil, Finset.card_univ, Fintype.card_fin]

/-- A longer path uses up more. -/
theorem card_unused_append_le (vs path : List (Fin g.size)) : (g.unused (vs ++ path)).card ≤ (g.unused path).card := by
  refine Finset.card_le_card fun w hw => ?_
  rw [mem_unused] at hw ⊢
  exact fun hm => hw (List.mem_append_right _ hm)

/-- A node that is entered uses up all positions that it holds. -/
theorem card_unused_cons_add_le (hv : v ∉ path) {held : Finset (Fin g.size)} (hheld : ∀ w ∈ held, g.holder w = v) :
    (g.unused (v :: path)).card + held.card ≤ (g.unused path).card := by
  have hdisjoint : Disjoint (g.unused (v :: path)) held := by
    rw [Finset.disjoint_left]
    intro w hw hm
    exact mem_unused.1 hw (hheld w hm ▸ List.mem_cons_self ..)
  rw [← Finset.card_union_of_disjoint hdisjoint]
  refine Finset.card_le_card (Finset.union_subset ?_ ?_)
  · intro w hw
    exact mem_unused.2 fun hm => mem_unused.1 hw (List.mem_cons_of_mem _ hm)
  · intro w hw
    exact mem_unused.2 (hheld w hw ▸ hv)

/-- A node that enters the path uses up its own position at least. -/
theorem card_unused_cons_lt (hv : v ∉ path) (hbranch : (g.node v).isBranch = false) :
    (g.unused (v :: path)).card < (g.unused path).card := by
  have hheld : ∀ w ∈ ({v} : Finset (Fin g.size)), g.holder w = v := by
    intro w hw
    obtain rfl := Finset.mem_singleton.1 hw
    exact holder_eq_self hbranch
  exact card_unused_cons_add_le hv hheld

/-- A branch is held by the conditional node that it belongs to. -/
theorem Indexes.holder_branch {catalog : NodeCatalog} {nodes : List Flow.Node} {edges : List Flow.Edge}
    (h : Indexes catalog nodes edges g) {w : Fin g.size} {parent : String} {condition : Option String}
    (hw : w ∈ g.successorsAt v) (hk : (g.node w).kind = .branch parent condition) : g.holder w = v := by
  obtain ⟨u, -, -, -, hu⟩ := h.predecessors_branch hk
  have hv : v ∈ g.predecessorsAt w := h.mem_predecessorsAt_iff.2 hw
  rw [hu, List.mem_singleton] at hv
  rw [holder, if_pos (by rw [Node.isBranch, hk]), hu, hv]
  rfl

/-- A conditional node uses up its branches too. -/
theorem Indexes.card_unused_cons_add_two_le {catalog : NodeCatalog} {nodes : List Flow.Node} {edges : List Flow.Edge}
    (h : Indexes catalog nodes edges g) (hv : v ∉ path) (hbranch : (g.node v).isBranch = false) {w : Fin g.size}
    {parent : String} {condition : Option String} (hw : w ∈ g.successorsAt v) (hk : (g.node w).kind = .branch parent condition) :
    (g.unused (v :: path)).card + 2 ≤ (g.unused path).card := by
  have hne : v ≠ w := by
    rintro rfl
    rw [Node.isBranch, hk] at hbranch
    cases hbranch
  rw [← Finset.card_pair hne]
  refine card_unused_cons_add_le hv fun u hu => ?_
  rcases Finset.mem_insert.1 hu with rfl | hu
  · exact holder_eq_self hbranch
  · rw [Finset.mem_singleton.1 hu, h.holder_branch hw hk]

/-- A conditional node that ends a run has not been entered. -/
theorem run_conditional {stop : Option (Fin g.size)} {next : Fin g.size} (h : (g.run stop path v).2 = .conditional next) :
    next ∉ (g.run stop path v).1.reverse ++ path ∧ (g.node next).isBranch = false := by
  fun_induction Graph.run g stop path v with
  | case4 path v w hs hstop hpath hk others ending hrun ih =>
    rw [hrun] at ih
    rw [List.reverse_cons, List.append_assoc]
    exact ih h
  | case5 path v w hs hstop hpath ids hk =>
    obtain rfl := RunEnd.conditional.inj h
    exact ⟨fun hm => hpath (List.contains_iff_mem.2 hm), by rw [Node.isBranch, hk]⟩
  | _ => cases h

end Graph

/-! ## The room of a frame -/

namespace Frame

variable {g : Graph}

/-- A choice is unfolded on a node that is not on the path. -/
def Fits (f : Frame g.size) : Prop :=
  ∀ v, f.segment = .choice v → v ∉ f.scope.path ∧ (g.node v).isBranch = false

/-- More than how many levels are left below a frame. -/
def room (f : Frame g.size) : Nat :=
  2 * (g.unused f.scope.path).card + match f.segment with
    | .after _ => 2
    | .choice _ => 0
    | .fork _ => 1

/-- The node of a choice is off the path, and no branch. -/
theorem Fits.choice {v : Fin g.size} {stop : Option (Fin g.size)} {scope : Scope g.size} (h : Fits ⟨.choice v, stop, scope⟩) :
    v ∉ scope.path ∧ (g.node v).isBranch = false :=
  h v rfl

/-- Of a sequence nothing is asked. -/
theorem fits_after {v : Fin g.size} {stop : Option (Fin g.size)} {scope : Scope g.size} : Fits ⟨.after v, stop, scope⟩ := by
  rintro _ ⟨⟩

theorem fits_fork {v : Fin g.size} {stop : Option (Fin g.size)} {scope : Scope g.size} : Fits ⟨.fork v, stop, scope⟩ := by
  rintro _ ⟨⟩

/-- A frame that fits has room left: the position of its choice, or a level of its own. -/
theorem Fits.room_pos {f : Frame g.size} (h : f.Fits) : 0 < f.room := by
  obtain ⟨segment, stop, scope⟩ := f
  cases segment with
  | after v => exact Nat.succ_pos _
  | choice v =>
    obtain ⟨hpath, hbranch⟩ := h.choice
    have := card_unused_cons_lt hpath hbranch
    simp only [room]
    omega
  | fork v => exact Nat.succ_pos _

variable {stop : Option (Fin g.size)} {scope : Scope g.size} {v : Fin g.size} {f f' : Frame g.size}

/-- Where a node is met, a frame has the room of the nodes that are not used up. -/
theorem Begins.room_le (h : Begins g stop scope v f) (hpath : v ∉ scope.path) :
    f.Fits ∧ f.room ≤ 2 * (g.unused scope.path).card := by
  cases h with
  | plain hk =>
    have := card_unused_cons_lt hpath (by rw [Node.isBranch, hk])
    refine ⟨fits_after, ?_⟩
    simp only [room, Scope.enter]
    omega
  | conditional hk =>
    refine ⟨?_, Nat.le_refl _⟩
    rintro _ ⟨⟩
    exact ⟨hpath, by rw [Node.isBranch, hk]⟩

/-- So it is behind a choice or parallel element. -/
theorem Continues.room_le (h : Continues g v stop scope f) : f.Fits ∧ f.room ≤ 2 * (g.unused scope.path).card := by
  obtain ⟨-, -, -, hpath, hbegins⟩ := h
  exact hbegins.room_le hpath

/-- With every call the room falls. -/
theorem Calls.room_lt {catalog : NodeCatalog} {nodes : List Flow.Node} {edges : List Flow.Edge}
    (hg : Indexes catalog nodes edges g) (h : f.Calls g f') (hf : f.Fits) : f'.Fits ∧ f'.room < f.room := by
  cases h with
  | @sequence v stop scope segment hend =>
    have := card_unused_append_le (g.run stop scope.path v).1.reverse scope.path
    cases hrun : (g.run stop scope.path v).2 <;> rw [hrun] at hend <;> cases hend
    · refine ⟨fits_fork, ?_⟩
      simp only [room, Scope.enterAll]
      omega
    · refine ⟨?_, ?_⟩
      · rintro _ ⟨⟩
        exact run_conditional hrun
      · simp only [room, Scope.enterAll]
        omega
  | @arm v stop scope branch parent condition hb hk =>
    obtain ⟨hpath, hbranch⟩ := hf.choice
    -- a sequence has two more levels of its own; the branch, used up with its choice, makes up for them
    have := hg.card_unused_cons_add_two_le hpath hbranch hb hk
    refine ⟨fits_after, ?_⟩
    simp only [room, Scope.enter, Scope.openAt]
    omega
  | @behindChoice v stop scope _ hcontinues =>
    obtain ⟨hpath, hbranch⟩ := hf.choice
    have hentered := card_unused_cons_lt hpath hbranch
    obtain ⟨hfits, hroom⟩ := hcontinues.room_le
    refine ⟨hfits, ?_⟩
    simp only [Scope.enter, Scope.openAt] at hroom
    simp only [room] at hroom ⊢
    omega
  | @lane v stop scope w _ hw hmerge hpath hbegins =>
    obtain ⟨hfits, hroom⟩ := hbegins.room_le hpath
    exact ⟨hfits, Nat.lt_succ_of_le hroom⟩
  | @behindFork v stop scope _ hcontinues =>
    obtain ⟨hfits, hroom⟩ := hcontinues.room_le
    exact ⟨hfits, Nat.lt_succ_of_le hroom⟩

end Frame

/-! ## The depth of a compilation -/

variable {catalog : NodeCatalog} {nodes : List Flow.Node} {edges : List Flow.Edge} {g : Graph}

/-- A compilation comes to a frame when its depth is at so many levels. -/
inductive Graph.Enters (g : Graph) : (depth : Nat) → Frame g.size → Prop
  | entry {v f} : g.entry = .ok v → Frame.Begins g none {} v f → Enters g 1 f
  | deeper {depth f f'} : Enters g depth f → f.Calls g f' → Enters g (depth + 1) f'

/-- The depth of a frame and its room do not go over twice the number of nodes by more than one. -/
theorem Graph.Enters.depth_add_room_le (hg : Indexes catalog nodes edges g) {depth : Nat} {f : Frame g.size}
    (h : g.Enters depth f) : f.Fits ∧ depth + f.room ≤ 2 * g.size + 1 := by
  induction h with
  | entry _ hf =>
    obtain ⟨hfits, hroom⟩ := hf.room_le List.not_mem_nil
    rw [card_unused_nil] at hroom
    exact ⟨hfits, by omega⟩
  | deeper _ hcalls ih =>
    obtain ⟨hfits, hroom⟩ := hcalls.room_lt hg ih.1
    exact ⟨hfits, by omega⟩

/-- A frame ends within as many levels as it has room for. -/
theorem Setting.endsWithin_room (hg : Indexes catalog nodes edges g) {s : Setting g} {n : Nat}
    {f : Frame g.size} (hf : f.Fits) (hn : f.room ≤ n) : s.EndsWithin n f := by
  induction n generalizing f with
  | zero => exact absurd (Nat.lt_of_lt_of_le hf.room_pos hn) (Nat.lt_irrefl 0)
  | succ n ih =>
    refine .of_calls fun f' hcalls => ?_
    obtain ⟨hfits, hroom⟩ := hcalls.room_lt hg hf
    exact ih hfits (by omega)

/-- On every graph, with loops or without, a compilation ends by itself, whatever its bound on the depth and its interceptors: no
frame is entered deeper than twice the number of nodes, more depth than that changes nothing, and with that much a compilation
does not run out of it. -/
theorem ends_within_twice_size (hg : Graph.build catalog nodes edges = .ok g) :
    (∀ depth frame, g.Enters depth frame → depth ≤ 2 * g.size) ∧
      ∀ (c : Compiler) (flowId : String),
        (∀ frame, g.Enters 1 frame → (c.setting flowId g).EndsWithin (2 * g.size) frame) ∧
          (2 * g.size ≤ c.maxDepth → ∀ node depth, c.compileGraph flowId g ≠ .error (.graphTooDeep node depth)) := by
  have hindexes := indexes_of_build hg
  have hends : ∀ (c : Compiler) (flowId : String) frame, g.Enters 1 frame →
      (c.setting flowId g).EndsWithin (2 * g.size) frame := by
    intro c flowId frame hframe
    obtain ⟨hfits, hroom⟩ := hframe.depth_add_room_le hindexes
    exact Setting.endsWithin_room hindexes hfits (by omega)
  refine ⟨fun depth frame hframe => ?_, fun c flowId => ⟨hends c flowId, fun hdepth => ?_⟩⟩
  · obtain ⟨hfits, hroom⟩ := hframe.depth_add_room_le hindexes
    have := hfits.room_pos
    omega
  · exact Compiler.compileGraph_ne_graphTooDeep fun v f hv hf => (hends c flowId f (.entry hv hf)).mono hdepth

/-- `Flow.retry` has nine nodes and two loops; from a depth of eighteen on no bound stops it. -/
theorem ends_within_twice_size_retry : ∃ g, Graph.build .standard Flow.retry.nodes Flow.retry.edges = .ok g ∧ g.size = 9 ∧
    (∀ depth frame, g.Enters depth frame → depth ≤ 18) ∧
      ∀ node depth, Compiler.compileGraph { maxDepth := 18 } "retry" g ≠ .error (.graphTooDeep node depth) := by
  obtain ⟨g, hg, hsize⟩ : ∃ g, Graph.build .standard Flow.retry.nodes Flow.retry.edges = .ok g ∧ g.size = 9 := by
    decide +kernel
  obtain ⟨hdepth, hends⟩ := ends_within_twice_size hg
  refine ⟨g, hg, hsize, fun depth frame hframe => ?_, (hends { maxDepth := 18 } "retry").2 ?_⟩
  · have := hdepth depth frame hframe
    omega
  · rw [hsize]

end FlowPlan
