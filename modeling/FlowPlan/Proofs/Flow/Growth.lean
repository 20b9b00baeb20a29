import FlowPlan.Flow.Basic
import Mathlib.Data.List.Nodup

/-!
# How flows grow

A `Flow.Exit` is a way out of a node. A flow grows from exits when nodes are attached to it one after the other, each behind exits
that are there. `Flow.Growth` says what such a part of a flow comes to as a whole: edges lead on to later nodes, every exit is left
and every node is entered, and how often. Parts grow behind each other (`Growth.follow`), side by side (`Growth.beside`), and from
one exit several times (`Growth.share`).
-/

namespace FlowPlan.Flow

/-- A way out of a node: the node itself or, when it has branches, one of them. -/
structure Exit where
  node : String
  branch : Option String := none
  deriving DecidableEq

/-- The id under which a graph leaves by an exit. -/
def Exit.id (x : Exit) : String :=
  x.branch.getD x.node

/-- The edge by which an exit is left. -/
def Exit.edge (x : Exit) (target : String) : Edge where
  source := x.node
  branch := x.branch
  target := target

/-- The exit by which an edge leaves. -/
def Edge.exit (e : Edge) : Exit where
  node := e.source
  branch := e.branch

/-- The ways out of a node. -/
def Node.exits (n : Node) : List Exit :=
  if n.branches.isEmpty then [⟨n.id, none⟩] else n.branches.map fun b => ⟨n.id, some b.id⟩

/-- A node without branches is left by itself. -/
theorem Node.exits_of_plain {n : Node} (h : n.branches = []) : n.exits = [⟨n.id, none⟩] := by
  rw [exits, h]
  rfl

/-- A node with branches is left by each of them. -/
theorem Node.exits_of_branches {n : Node} (h : n.branches ≠ []) : n.exits = n.branches.map fun b => ⟨n.id, some b.id⟩ :=
  if_neg (mt List.isEmpty_iff.1 h)

/-- A way out of a node is one of these. -/
theorem Node.mem_exits {n : Node} {x : Exit} (hx : x ∈ n.exits) : x.node = n.id ∧
    (n.branches = [] ∧ x.branch = none ∨ ∃ b ∈ n.branches, x.branch = some b.id) := by
  by_cases hne : n.branches = []
  · rw [exits_of_plain hne, List.mem_singleton] at hx
    subst hx
    exact ⟨rfl, Or.inl ⟨hne, rfl⟩⟩
  · rw [exits_of_branches hne] at hx
    obtain ⟨b, hb, rfl⟩ := List.mem_map.1 hx
    exact ⟨rfl, Or.inr ⟨b, hb, rfl⟩⟩

/-- An exit of a node has the id of the node or of one of its branches. -/
theorem Node.id_mem_of_mem_exits {n : Node} {x : Exit} (hx : x ∈ n.exits) : x.id ∈ n.id :: n.branches.map (·.id) := by
  obtain ⟨hnode, ⟨-, hbranch⟩ | ⟨b, hb, hbranch⟩⟩ := mem_exits hx
  · rw [Exit.id, hbranch, ← hnode]
    exact List.mem_cons_self ..
  · rw [Exit.id, hbranch]
    exact List.mem_cons_of_mem _ (List.mem_map_of_mem hb)

/-- Ids of exits are ids that the node takes, in order. -/
theorem Node.exits_ids_sublist (n : Node) : (n.exits.map Exit.id).Sublist (n.id :: n.branches.map (·.id)) := by
  by_cases hne : n.branches = []
  · simp [exits_of_plain hne, hne, Exit.id]
  · rw [exits_of_branches hne, List.map_map]
    exact List.sublist_cons_self ..

/-- What is met twice in a list, and once at most in the first of two others, is in the second one. -/
theorem mem_of_met_twice {α β : Type} [DecidableEq β] {f : α → β} {l : List α} {others first second : List β}
    (h : (l.map f ++ others).Perm (first ++ second)) (hfirst : first.Nodup) {a b : α} (ha : a ∈ l) (hb : b ∈ l) (hne : a ≠ b)
    (hf : f a = f b) : f a ∈ second := by
  obtain ⟨front, back, rfl⟩ := List.append_of_mem ha
  have hagain : f a ∈ (front ++ back).map f := hf ▸ List.mem_map_of_mem (by simpa [hne.symm] using hb)
  have hpos := List.count_pos_iff.2 hagain
  have hone := List.nodup_iff_count_le_one.1 hfirst (f a)
  have hcount := h.count_eq (f a)
  simp only [List.map_append, List.map_cons, List.count_append, List.count_cons_self] at hpos hcount
  exact List.count_pos_iff.1 (by omega)

/-- A part of a flow that grows from the exits `roots` and leaves `tips` open. -/
structure Growth (roots : List Exit) (nodes : List Node) (edges : List Edge) (tips forks : List Exit) (meets : List String) :
    Prop where
  /-- an edge leads from a root, or from a node of the part, to a later node of it -/
  onward : ∀ e ∈ edges, ∃ front n back, nodes = front ++ n :: back ∧ e.target = n.id ∧
    e.exit ∈ roots ++ front.flatMap Node.exits
  known : ∀ x ∈ tips, x ∈ roots ++ nodes.flatMap Node.exits
  /-- every exit is left by one edge or is a tip, but those in `forks` are left again -/
  leaves : (edges.map Edge.exit ++ tips).Perm (roots ++ nodes.flatMap Node.exits ++ forks)
  /-- every node is entered by one edge, but those in `meets` are entered again -/
  enters : (edges.map (·.target)).Perm (nodes.map (·.id) ++ meets)

namespace Growth

variable {roots roots' tips tips' forks forks' : List Exit} {nodes nodes' : List Node} {edges edges' : List Edge}
  {meets meets' : List String}

/-- Nothing grows. -/
theorem rest (roots : List Exit) : Growth roots [] [] roots [] [] where
  onward := by simp
  known := by simp
  leaves := by simp
  enters := by simp

/-- A node grows behind exits. -/
theorem attach {n : Node} (h : roots ≠ []) : Growth roots [n] (roots.map (·.edge n.id)) n.exits []
    (List.replicate (roots.length - 1) n.id) where
  onward := by
    intro e he
    obtain ⟨x, hx, rfl⟩ := List.mem_map.1 he
    exact ⟨[], n, [], rfl, rfl, List.mem_append_left _ hx⟩
  known := fun x hx => List.mem_append_right _ (by simpa using hx)
  leaves := by
    have hexits : (roots.map (·.edge n.id)).map Edge.exit = roots := by
      rw [List.map_map]
      exact List.map_id roots
    simp [hexits]
  enters := by
    obtain ⟨x, others, rfl⟩ := List.exists_cons_of_ne_nil h
    have htargets : ((x :: others).map (·.edge n.id)).map (·.target) = List.replicate (x :: others).length n.id := by
      rw [List.map_map]
      exact List.map_const' ..
    rw [htargets, List.length_cons, Nat.add_sub_cancel, List.replicate_succ]
    exact List.Perm.refl _

/-- A plain node grows behind one exit. -/
theorem attach_plain {x : Exit} {n : Node} (hn : n.branches = []) : Growth [x] [n] [x.edge n.id] [⟨n.id, none⟩] [] [] :=
  Node.exits_of_plain hn ▸ attach (List.cons_ne_nil x [])

/-- A way out is taken by an edge, or is still open. -/
theorem mem_leaves (h : Growth roots nodes edges tips forks meets) {x : Exit} (hx : x ∈ roots ++ nodes.flatMap Node.exits) :
    (∃ e ∈ edges, e.exit = x) ∨ x ∈ tips := by
  rcases List.mem_append.1 (h.leaves.mem_iff.2 (List.mem_append_left _ hx)) with hx | hx
  · exact Or.inl (List.mem_map.1 hx)
  · exact Or.inr hx

/-- An edge leads to each node of a part. -/
theorem exists_enters (h : Growth roots nodes edges tips forks meets) {n : Node} (hn : n ∈ nodes) :
    ∃ e ∈ edges, e.target = n.id :=
  List.mem_map.1 (h.enters.mem_iff.2 (List.mem_append_left _ (List.mem_map_of_mem hn)))

/-- A node that two edges enter is one where branches meet. -/
theorem mem_meets (h : Growth roots nodes edges tips forks meets) (hnodes : (nodes.map (·.id)).Nodup) {e e' : Edge}
    (he : e ∈ edges) (he' : e' ∈ edges) (hne : e ≠ e') (htarget : e.target = e'.target) : e.target ∈ meets := by
  have henters : (edges.map Edge.target ++ []).Perm (nodes.map Node.id ++ meets) := by simpa using h.enters
  exact mem_of_met_twice henters hnodes he he' hne htarget

/-- An exit that two edges leave is a fork. -/
theorem mem_forks (h : Growth roots nodes edges tips forks meets) (hexits : (roots ++ nodes.flatMap Node.exits).Nodup) {e e' : Edge}
    (he : e ∈ edges) (he' : e' ∈ edges) (hne : e ≠ e') (hexit : e.exit = e'.exit) : e.exit ∈ forks :=
  mem_of_met_twice h.leaves hexits he he' hne hexit

/-- Edges of two parts lead to the nodes of both. -/
theorem enters_append (h : Growth roots nodes edges tips forks meets) (h' : Growth roots' nodes' edges' tips' forks' meets') :
    ((edges ++ edges').map (·.target)).Perm ((nodes ++ nodes').map (·.id) ++ (meets ++ meets')) := by
  refine List.perm_iff_count.2 fun id => ?_
  have hcount := h.enters.count_eq id
  have hcount' := h'.enters.count_eq id
  simp only [List.map_append, List.count_append] at hcount hcount' ⊢
  omega

/-- A part grows behind another one, from its tips. -/
theorem follow (h : Growth roots nodes edges tips forks meets) (h' : Growth tips nodes' edges' tips' forks' meets') :
    Growth roots (nodes ++ nodes') (edges ++ edges') tips' (forks ++ forks') (meets ++ meets') where
  onward := by
    intro e he
    rcases List.mem_append.1 he with he | he
    · obtain ⟨front, n, back, rfl, htarget, hexit⟩ := h.onward e he
      exact ⟨front, n, back ++ nodes', by simp, htarget, hexit⟩
    · obtain ⟨front, n, back, rfl, htarget, hexit⟩ := h'.onward e he
      refine ⟨nodes ++ front, n, back, by simp, htarget, ?_⟩
      rw [List.flatMap_append, ← List.append_assoc]
      rcases List.mem_append.1 hexit with hexit | hexit
      · exact List.mem_append_left _ (h.known _ hexit)
      · exact List.mem_append_right _ hexit
  known := by
    intro x hx
    rw [List.flatMap_append, ← List.append_assoc]
    rcases List.mem_append.1 (h'.known x hx) with hx | hx
    · exact List.mem_append_left _ (h.known x hx)
    · exact List.mem_append_right _ hx
  leaves := by
    refine List.perm_iff_count.2 fun x => ?_
    have hcount := h.leaves.count_eq x
    have hcount' := h'.leaves.count_eq x
    simp only [List.map_append, List.flatMap_append, List.count_append] at hcount hcount' ⊢
    omega
  enters := h.enters_append h'

/-- Two parts grow side by side. -/
theorem beside (h : Growth roots nodes edges tips forks meets) (h' : Growth roots' nodes' edges' tips' forks' meets') :
    Growth (roots ++ roots') (nodes ++ nodes') (edges ++ edges') (tips ++ tips') (forks ++ forks') (meets ++ meets') where
  onward := by
    intro e he
    rcases List.mem_append.1 he with he | he
    · obtain ⟨front, n, back, rfl, htarget, hexit⟩ := h.onward e he
      refine ⟨front, n, back ++ nodes', by simp, htarget, ?_⟩
      rcases List.mem_append.1 hexit with hexit | hexit
      · exact List.mem_append_left _ (List.mem_append_left _ hexit)
      · exact List.mem_append_right _ hexit
    · obtain ⟨front, n, back, rfl, htarget, hexit⟩ := h'.onward e he
      refine ⟨nodes ++ front, n, back, by simp, htarget, ?_⟩
      rw [List.flatMap_append]
      rcases List.mem_append.1 hexit with hexit | hexit
      · exact List.mem_append_left _ (List.mem_append_right _ hexit)
      · exact List.mem_append_right _ (List.mem_append_right _ hexit)
  known := by
    intro x hx
    rcases List.mem_append.1 hx with hx | hx
    · have := h.known x hx
      simp only [List.mem_append, List.flatMap_append] at this ⊢
      tauto
    · have := h'.known x hx
      simp only [List.mem_append, List.flatMap_append] at this ⊢
      tauto
  leaves := by
    refine List.perm_iff_count.2 fun x => ?_
    have hcount := h.leaves.count_eq x
    have hcount' := h'.leaves.count_eq x
    simp only [List.map_append, List.flatMap_append, List.count_append] at hcount hcount' ⊢
    omega
  enters := h.enters_append h'

/-- What grows from one exit several times grows from that exit, which is a fork. -/
theorem share {x : Exit} {k : Nat} (h : Growth (List.replicate (k + 1) x) nodes edges tips forks meets) :
    Growth [x] nodes edges tips (List.replicate k x ++ forks) meets where
  onward := by
    intro e he
    obtain ⟨front, n, back, hnodes, htarget, hexit⟩ := h.onward e he
    refine ⟨front, n, back, hnodes, htarget, ?_⟩
    simpa [List.mem_replicate] using hexit
  known := by
    intro y hy
    simpa [List.mem_replicate] using h.known y hy
  leaves := by
    refine List.perm_iff_count.2 fun y => ?_
    have hcount := h.leaves.count_eq y
    simp only [List.replicate_succ, List.count_append, List.count_cons, List.count_nil] at hcount ⊢
    omega
  enters := h.enters

end Growth

end FlowPlan.Flow
