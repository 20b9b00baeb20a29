import FlowPlan.Proofs.Graph.Links
import Mathlib.Data.List.Forall2

/-!
# What indexing makes sure of

Statements about the graphs that `Graph.build` makes. An id stands at one position (`Indexes.ids_injective`,
`Indexes.find?_eq_some_iff`), and a position holds a declared node (`Indexes.declared`) or a branch of a declared conditional node
(`Indexes.branch_origin`). Links are kept once, and predecessors are converse to successors.
-/

namespace FlowPlan.Graph

/-! ## Kinds -/

section Kinds

variable {g : Graph} {v : Fin g.size}

theorem not_isConditional_of_plain (h : (g.node v).kind = .plain) : (g.node v).isConditional = false := by
  rw [Node.isConditional, h]

theorem not_isConditional_of_branch {parent : String} {condition : Option String}
    (h : (g.node v).kind = .branch parent condition) : (g.node v).isConditional = false := by
  rw [Node.isConditional, h]

theorem isConditional_of_kind {ids : List String} (h : (g.node v).kind = .conditional ids) :
    (g.node v).isConditional = true := by
  rw [Node.isConditional, h]

theorem kind_of_isConditional (h : (g.node v).isConditional = true) : ∃ ids, (g.node v).kind = .conditional ids := by
  cases hk : (g.node v).kind with
  | conditional ids => exact ⟨ids, rfl⟩
  | _ =>
    rw [Node.isConditional, hk] at h
    cases h

/-- A branch has a parent, and a condition or none. -/
theorem kind_of_isBranch (h : (g.node v).isBranch = true) : ∃ parent condition, (g.node v).kind = .branch parent condition := by
  cases hk : (g.node v).kind with
  | branch parent condition => exact ⟨parent, condition, rfl⟩
  | _ =>
    rw [Node.isBranch, hk] at h
    cases h

theorem not_isBranch_of_isConditional (h : (g.node v).isConditional = true) : (g.node v).isBranch = false := by
  cases hk : (g.node v).kind with
  | conditional ids => rw [Node.isBranch, hk]
  | _ =>
    rw [Node.isConditional, hk] at h
    cases h

theorem not_isConditional_of_isBranch (h : (g.node v).isBranch = true) : (g.node v).isConditional = false := by
  refine Bool.eq_false_iff.2 fun hc => ?_
  rw [not_isBranch_of_isConditional hc] at h
  cases h

end Kinds

/-! ## Results that can be decided -/

section Decidable

variable {ε α : Type} (x : Except ε α)

/-- Whether there is a result is decided by a run. -/
instance decidableExistsOk : Decidable (∃ a, x = .ok a) :=
  match x with
  | .ok a => .isTrue ⟨a, rfl⟩
  | .error _ => .isFalse nofun

/-- Whether there is a result, and `p` is true of it. -/
instance decidableExistsOkAnd (p : α → Prop) [DecidablePred p] : Decidable (∃ a, x = .ok a ∧ p a) :=
  match x with
  | .ok a => decidable_of_iff (p a) ⟨fun h => ⟨a, rfl, h⟩, fun ⟨_, h, hp⟩ => Except.ok.inj h ▸ hp⟩
  | .error _ => .isFalse nofun

/-- Whether a run ends with the error `e`, whatever its results can be compared by. -/
instance decidableEqError [DecidableEq ε] (e : ε) : Decidable (x = .error e) :=
  match x with
  | .ok _ => .isFalse nofun
  | .error e' => decidable_of_iff (e' = e) ⟨congrArg _, Except.error.inj⟩

end Decidable

/-! ## Helpers: what was accepted on the way -/

namespace IndexingAux

/-- Two parts end well when each does. -/
theorem bind_ok {ε α β : Type} {x : Except ε α} {f : α → Except ε β} {b : β} (h : x >>= f = .ok b) :
    ∃ a, x = .ok a ∧ f a = .ok b := by
  cases x with
  | error e => cases h
  | ok a => exact ⟨a, rfl, h⟩

/-- Accepted ids are new and pairwise distinct, and are taken afterwards. -/
theorem takeIds_ok {taken taken' : Std.TreeSet String} {nodes : List Node} (h : takeIds taken nodes = .ok taken') :
    (nodes.map (·.id)).Nodup ∧ (∀ x ∈ nodes, x.id ∉ taken) ∧ ∀ id, id ∈ taken' ↔ id ∈ taken ∨ id ∈ nodes.map (·.id) := by
  induction nodes generalizing taken with
  | nil =>
    cases h
    simp
  | cons node rest ih =>
    rw [takeIds] at h
    split at h
    · cases h
    · rename_i hnew
      obtain ⟨hnd, hfresh, hmem⟩ := ih h
      have hfree : node.id ∉ taken := fun hm => hnew (Std.TreeSet.contains_iff_mem.2 hm)
      refine ⟨?_, ?_, ?_⟩
      · rw [List.map_cons, List.nodup_cons]
        refine ⟨fun hm => ?_, hnd⟩
        obtain ⟨x, hx, he⟩ := List.mem_map.1 hm
        exact hfresh x hx (Std.TreeSet.mem_insert.2 (Or.inl (by simp [he])))
      · intro x hx
        rcases List.mem_cons.1 hx with rfl | hx
        · exact hfree
        · exact fun hm => hfresh x hx (Std.TreeSet.mem_insert.2 (Or.inr hm))
      · intro id
        rw [hmem, Std.TreeSet.mem_insert, Std.LawfulEqCmp.compare_eq_iff_eq, List.map_cons, List.mem_cons]
        constructor
        · rintro ((rfl | hm) | hm)
          · exact Or.inr (Or.inl rfl)
          · exact Or.inl hm
          · exact Or.inr (Or.inr hm)
        · rintro (hm | rfl | hm)
          · exact Or.inl (Or.inr hm)
          · exact Or.inl (Or.inl rfl)
          · exact Or.inr hm

/-- Registered nodes have distinct ids and are the groups of the declared nodes, in order. -/
theorem registerNodes_ok {catalog : NodeCatalog} {taken : Std.TreeSet String} {nodes : List Flow.Node} {registered : List Node}
    (h : registerNodes catalog taken nodes = .ok registered) :
    (registered.map (·.id)).Nodup ∧ (∀ x ∈ registered, x.id ∉ taken) ∧
      ∃ groups, List.Forall₂ (fun n group => Node.ofFlowNode catalog n = .ok group) nodes groups ∧
        registered = groups.flatten := by
  induction nodes generalizing taken registered with
  | nil =>
    cases h
    exact ⟨List.nodup_nil, by simp, [], List.Forall₂.nil, rfl⟩
  | cons n rest ih =>
    obtain ⟨group, hgroup, h⟩ := bind_ok h
    obtain ⟨taken', htaken, h⟩ := bind_ok h
    obtain ⟨others, hothers, h⟩ := bind_ok h
    cases h
    obtain ⟨hnd, hfresh, hmem⟩ := takeIds_ok htaken
    obtain ⟨hnd', hfresh', groups, hgroups, rfl⟩ := ih hothers
    refine ⟨?_, ?_, group :: groups, hgroups.cons hgroup, rfl⟩
    · rw [List.map_append, List.nodup_append]
      refine ⟨hnd, hnd', ?_⟩
      rintro a ha b hb rfl
      obtain ⟨y, hy, rfl⟩ := List.mem_map.1 hb
      exact hfresh' y hy ((hmem y.id).2 (Or.inr ha))
    · intro x hx
      rcases List.mem_append.1 hx with hx | hx
      · exact hfresh x hx
      · exact fun hm => hfresh' x hx ((hmem x.id).2 (Or.inl hm))

/-- With distinct ids, an id is found exactly where it stands. -/
theorem getElem?_positionsOf {n : Nat} {nodes : Vector Node n}
    (hinj : ∀ v w, (nodes.get v).id = (nodes.get w).id → v = w) (id : String) (v : Fin n) :
    (positionsOf nodes)[id]? = some v ↔ (nodes.get v).id = id := by
  have upTo : ∀ l : List (Fin n), (l.foldl (fun m v => m.insert (nodes.get v).id v) (∅ : Std.TreeMap String (Fin n)))[id]?
      = some v ↔ v ∈ l ∧ (nodes.get v).id = id := by
    intro l
    induction l using List.reverseRecOn with
    | nil => simp
    | append_singleton rest w ih =>
      rw [List.foldl_append, List.foldl_cons, List.foldl_nil, Std.TreeMap.getElem?_insert]
      simp only [Std.LawfulEqCmp.compare_eq_iff_eq, List.mem_append, List.mem_singleton]
      split
      · rename_i hw
        simp only [Option.some.injEq]
        constructor
        · rintro rfl
          exact ⟨Or.inr rfl, hw⟩
        · rintro ⟨-, hv⟩
          exact hinj w v (hw.trans hv.symm)
      · rename_i hw
        rw [ih]
        constructor
        · rintro ⟨hm, hv⟩
          exact ⟨Or.inl hm, hv⟩
        · rintro ⟨hm | rfl, hv⟩
          · exact ⟨hm, hv⟩
          · exact absurd hv hw
  rw [positionsOf, upTo]
  simp

/-- A position is told by the id there. -/
theorem get_injective {n : Nat} {nodes : Vector Node n} (hnd : (nodes.toList.map (·.id)).Nodup) {v w : Fin n}
    (he : (nodes.get v).id = (nodes.get w).id) : v = w := by
  have hv : v.val < (nodes.toList.map (·.id)).length := by simp
  have hw : w.val < (nodes.toList.map (·.id)).length := by simp
  have heq : (nodes.toList.map (·.id))[v.val] = (nodes.toList.map (·.id))[w.val] := by
    simp only [List.getElem_map, Vector.getElem_toList]
    exact he
  exact Fin.ext ((List.Nodup.getElem_inj_iff hnd).1 heq)

theorem mem_toList_iff {n : Nat} {nodes : Vector Node n} {x : Node} : x ∈ nodes.toList ↔ ∃ v, nodes.get v = x := by
  rw [Vector.mem_toList_iff, Vector.mem_iff_getElem]
  constructor
  · rintro ⟨i, hi, rfl⟩
    exact ⟨⟨i, hi⟩, rfl⟩
  · rintro ⟨v, rfl⟩
    exact ⟨v.val, v.isLt, rfl⟩

end IndexingAux

namespace Node

/-- A declared node as the graph holds it. -/
def declared (n : Flow.Node) (kind : Kind) : Node where
  id := n.id
  component := n.component
  parameters := Value.ofParameters n.parameters
  kind := kind

/-- What the catalog may make of a node. -/
theorem kindOf_ok {catalog : NodeCatalog} {n : Flow.Node} {kind : Kind} (h : kindOf catalog n = .ok kind) :
    (kind = .conditional (n.branches.map (·.id)) ∧ (n.branches.filter (·.condition.isNone)).length ≤ 1) ∨
      kind = .plain ∨ kind = .unrecognized := by
  unfold kindOf at h
  split at h
  · simp only at h
    split at h
    · cases h
    · cases h
      exact Or.inl ⟨rfl, by omega⟩
  · split at h
    · cases h
      exact Or.inr (Or.inl rfl)
    · cases h
  · cases h
    exact Or.inr (Or.inr rfl)

/-- A node that is taken for conditional has at most one branch without a condition. -/
theorem kindOf_conditional {catalog : NodeCatalog} {n : Flow.Node} {ids : List String}
    (h : kindOf catalog n = .ok (.conditional ids)) :
    ids = n.branches.map (·.id) ∧ (n.branches.filter (·.condition.isNone)).length ≤ 1 := by
  rcases kindOf_ok h with ⟨he, hone⟩ | he | he <;> cases he
  exact ⟨rfl, hone⟩

/-- The catalog says which nodes are conditional. -/
theorem shapeOf?_of_conditional {catalog : NodeCatalog} {n : Flow.Node} {ids : List String}
    (h : kindOf catalog n = .ok (.conditional ids)) : catalog.shapeOf? n.component = some .conditional := by
  unfold kindOf at h
  split at h
  · rename_i hshape
    exact hshape
  · split at h <;> cases h
  · cases h

/-- A node of a flow is not a branch. -/
theorem isBranch_declared {catalog : NodeCatalog} {n : Flow.Node} {kind : Kind} (h : kindOf catalog n = .ok kind) :
    (declared n kind).isBranch = false := by
  rcases kindOf_ok h with ⟨rfl, -⟩ | rfl | rfl
  · rfl
  · rfl
  · rfl

/-- A registered node comes first, and its branches only when it is conditional. -/
theorem ofFlowNode_ok {catalog : NodeCatalog} {n : Flow.Node} {group : List Node} (h : ofFlowNode catalog n = .ok group) :
    ∃ kind, kindOf catalog n = .ok kind ∧
      group = declared n kind :: if (declared n kind).isConditional then n.branches.map (ofBranch n) else [] := by
  obtain ⟨kind, hkind, h⟩ := IndexingAux.bind_ok h
  cases h
  exact ⟨kind, hkind, rfl⟩

end Node

/-- A declared node has its id in the graph. -/
theorem idAt_of_declared {g : Graph} {v : Fin g.size} {n : Flow.Node} {kind : Kind} (h : g.node v = .declared n kind) :
    g.idAt v = n.id := by
  rw [idAt, h]
  rfl

theorem idAt_of_branch {g : Graph} {v : Fin g.size} {n : Flow.Node} {b : Flow.Branch} (h : g.node v = .ofBranch n b) :
    g.idAt v = b.id := by
  rw [idAt, h]
  rfl

/-- What indexing makes of declared nodes and edges: the groups of the nodes in order, under distinct ids, and the links. It is a
class, and the graph tells the other arguments, so that `simp` answers questions by id wherever a hypothesis says what the graph
indexes. -/
class Indexes (catalog : outParam NodeCatalog) (nodes : outParam (List Flow.Node)) (edges : outParam (List Flow.Edge))
    (g : Graph) : Prop where
  distinct : (g.nodes.toList.map (·.id)).Nodup
  grouped : ∃ groups, List.Forall₂ (fun n group => Node.ofFlowNode catalog n = .ok group) nodes groups ∧
    g.nodes.toList = groups.flatten
  positions_eq : g.positions = positionsOf g.nodes
  linked : ∃ links, edgeLinks g.nodes g.positions edges = .ok links ∧
    g.adjacency = .ofLinks (branchLinks g.nodes g.positions ++ links)

namespace IndexingAux

/-- Registered nodes by their positions. -/
def listed (registered : List Node) : Vector Node registered.length :=
  ⟨registered.toArray, List.size_toArray⟩

/-- The graph of registered nodes and of the links that edges add. -/
def ofRegistered (registered : List Node) (links : List (Fin registered.length × Fin registered.length)) : Graph where
  size := registered.length
  nodes := listed registered
  positions := positionsOf (listed registered)
  adjacency := .ofLinks (branchLinks (listed registered) (positionsOf (listed registered)) ++ links)

/-- A listing of nodes loses none of them and keeps their order. -/
@[simp] theorem toList_listed (registered : List Node) : (listed registered).toList = registered := by
  simp [listed]

/-- A graph is made of nodes and edges when neither list is empty and all of both are accepted. -/
theorem ofParts_eq_ok_iff {catalog : NodeCatalog} {nodes : List Flow.Node} {edges : List Flow.Edge} {g : Graph} :
    ofParts catalog nodes edges = .ok g ↔ nodes ≠ [] ∧ edges ≠ [] ∧ ∃ registered links,
      registerNodes catalog ∅ nodes = .ok registered ∧
        edgeLinks (listed registered) (positionsOf (listed registered)) edges = .ok links ∧ g = ofRegistered registered links := by
  unfold ofParts
  constructor
  · intro h
    by_cases hn : nodes.isEmpty = true
    · rw [if_pos hn] at h
      cases h
    by_cases he : edges.isEmpty = true
    · rw [if_neg hn, if_pos he] at h
      cases h
    rw [if_neg hn, if_neg he] at h
    obtain ⟨registered, hreg, h⟩ := bind_ok h
    obtain ⟨links, hlinks, h⟩ := bind_ok h
    cases h
    exact ⟨mt List.isEmpty_iff.2 hn, mt List.isEmpty_iff.2 he, registered, links, hreg, hlinks, rfl⟩
  · rintro ⟨hn, he, registered, links, hreg, hlinks, rfl⟩
    rw [if_neg (mt List.isEmpty_iff.1 hn), if_neg (mt List.isEmpty_iff.1 he), hreg]
    simp only [bind, Except.bind]
    change (edgeLinks (listed registered) (positionsOf (listed registered)) edges).bind _ = _
    rw [hlinks]
    rfl

/-- Nodes and edges make a graph when there are some, the nodes can be registered and the edges can be linked. -/
theorem build_eq_ok_iff {catalog : NodeCatalog} {nodes : List Flow.Node} {edges : List Flow.Edge} {g : Graph} :
    Graph.build catalog nodes edges = .ok g ↔ nodes ≠ [] ∧ edges ≠ [] ∧ ∃ registered links,
      registerNodes catalog ∅ nodes = .ok registered ∧
        edgeLinks (listed registered) (positionsOf (listed registered)) edges = .ok links ∧ g = ofRegistered registered links := by
  rw [← ofParts_eq_ok_iff, Graph.build]
  cases ofParts catalog nodes edges with
  | error e => exact ⟨nofun, nofun⟩
  | ok g' => exact ⟨fun h => congrArg Except.ok (Except.ok.inj h), fun h => congrArg Except.ok (Except.ok.inj h)⟩

/-- Links come from edges. -/
theorem mem_edgeLinks {n : Nat} {nodes : Vector Node n} {positions : Std.TreeMap String (Fin n)} {edges : List Flow.Edge}
    {links : List (Fin n × Fin n)} (h : edgeLinks nodes positions edges = .ok links) :
    ∀ l ∈ links, ∃ edge ∈ edges, edgeLink? nodes positions edge = .ok (some l) := by
  induction edges generalizing links with
  | nil =>
    cases h
    simp
  | cons edge rest ih =>
    obtain ⟨link, hlink, h⟩ := bind_ok h
    obtain ⟨others, hothers, h⟩ := bind_ok h
    cases h
    intro l hl
    rcases List.mem_append.1 hl with hl | hl
    · rw [Option.mem_toList] at hl
      exact ⟨edge, List.mem_cons_self .., by rw [hlink, hl]⟩
    · obtain ⟨e, he, hl⟩ := ih hothers l hl
      exact ⟨e, List.mem_cons_of_mem _ he, hl⟩

/-- The links to the branches of a node stand in the order of the branches. -/
theorem map_filter_branchLinks {n : Nat} (nodes : Vector Node n) (positions : Std.TreeMap String (Fin n)) (v : Fin n) :
    ((branchLinks nodes positions).filter fun l => l.1 == v).map (·.2) =
      (nodes.get v).branchIds.filterMap fun id => positions[id]? := by
  obtain ⟨before, after, hsplit⟩ := List.append_of_mem (List.mem_finRange v)
  have hnd : (before ++ v :: after).Nodup := hsplit ▸ List.nodup_finRange n
  obtain ⟨-, hafter, hbefore⟩ := List.nodup_append.1 hnd
  have hoff : ∀ us : List (Fin n), v ∉ us → (us.flatMap fun u =>
      (nodes.get u).branchIds.filterMap fun b => positions[b]?.map (u, ·)).filter (fun l => l.1 == v) = [] := by
    intro us hus
    rw [List.filter_eq_nil_iff]
    intro l hl hv
    obtain ⟨u, hu, hl⟩ := List.mem_flatMap.1 hl
    obtain ⟨b, -, hb⟩ := List.mem_filterMap.1 hl
    obtain ⟨t, -, rfl⟩ := Option.map_eq_some_iff.1 hb
    exact hus (beq_iff_eq.1 hv ▸ hu)
  have hon : ∀ l ∈ (nodes.get v).branchIds.filterMap (fun b => positions[b]?.map (v, ·)), (l.1 == v) = true := by
    intro l hl
    obtain ⟨b, -, hb⟩ := List.mem_filterMap.1 hl
    obtain ⟨t, -, rfl⟩ := Option.map_eq_some_iff.1 hb
    exact beq_self_eq_true v
  rw [branchLinks, hsplit, List.flatMap_append, List.flatMap_cons, List.filter_append, List.filter_append,
    hoff before fun hv => hbefore v hv v (List.mem_cons_self ..) rfl, hoff after (List.nodup_cons.1 hafter).1,
    List.filter_eq_self.2 hon, List.nil_append, List.append_nil, List.map_filterMap]
  simp only [Option.map_map, Function.comp_def, Option.map_id']

/-- Elements at the same place of two lists that match. -/
theorem exists_of_forall₂_left {α β : Type} {R : α → β → Prop} {xs : List α} {ys : List β} (h : List.Forall₂ R xs ys) :
    ∀ x ∈ xs, ∃ y ∈ ys, R x y := by
  induction h with
  | nil => simp
  | cons hr _ ih =>
    intro x hx
    rcases List.mem_cons.1 hx with rfl | hx
    · exact ⟨_, by simp, hr⟩
    · obtain ⟨y, hy, hxy⟩ := ih x hx
      exact ⟨y, by simp [hy], hxy⟩

/-- Nodes that are registered and edges that are linked are indexed. -/
theorem indexes_ofRegistered {catalog : NodeCatalog} {nodes : List Flow.Node} {edges : List Flow.Edge} {registered : List Node}
    {links : List (Fin registered.length × Fin registered.length)} (hreg : registerNodes catalog ∅ nodes = .ok registered)
    (hlinks : edgeLinks (listed registered) (positionsOf (listed registered)) edges = .ok links) :
    Indexes catalog nodes edges (ofRegistered registered links) := by
  obtain ⟨hnd, -, hgrouped⟩ := registerNodes_ok hreg
  rw [← toList_listed registered] at hnd hgrouped
  exact ⟨hnd, hgrouped, rfl, links, hlinks, rfl⟩

end IndexingAux

open IndexingAux

/-- A graph that `build` accepts indexes its nodes and edges. -/
theorem indexes_of_build {catalog : NodeCatalog} {nodes : List Flow.Node} {edges : List Flow.Edge} {g : Graph}
    (h : Graph.build catalog nodes edges = .ok g) : Indexes catalog nodes edges g := by
  obtain ⟨-, -, registered, links, hreg, hlinks, rfl⟩ := build_eq_ok_iff.1 h
  exact indexes_ofRegistered hreg hlinks

namespace Indexes

variable {catalog : NodeCatalog} {nodes : List Flow.Node} {edges : List Flow.Edge} {g : Graph}

/-! ## Positions and ids -/

/-- No two nodes of a graph have one id. -/
theorem ids_injective (h : Indexes catalog nodes edges g) {v w : Fin g.size} (he : g.idAt v = g.idAt w) : v = w :=
  IndexingAux.get_injective h.distinct he

/-- A node of a graph is told by its id. -/
@[simp] theorem idAt_inj (h : Indexes catalog nodes edges g) {v w : Fin g.size} : g.idAt v = g.idAt w ↔ v = w :=
  ⟨h.ids_injective, fun he => he ▸ rfl⟩

/-- To find an id is to find the node that has it. -/
theorem find?_eq_some_iff (h : Indexes catalog nodes edges g) {id : String} {v : Fin g.size} :
    g.find? id = some v ↔ g.idAt v = id := by
  unfold Graph.find?
  rw [h.positions_eq]
  exact getElem?_positionsOf (fun _ _ => h.ids_injective) id v

/-- The id of a node finds it. -/
@[simp] theorem find?_idAt (h : Indexes catalog nodes edges g) (v : Fin g.size) : g.find? (g.idAt v) = some v :=
  h.find?_eq_some_iff.2 rfl

/-- The nodes of a graph are those at its positions. -/
theorem mem_nodes_iff {x : Node} : x ∈ g.nodes.toList ↔ ∃ v, g.node v = x :=
  IndexingAux.mem_toList_iff

/-- A declared node is registered with its branches, when it is conditional, under distinct ids. -/
theorem group_of_declared (h : Indexes catalog nodes edges g) {n : Flow.Node} (hn : n ∈ nodes) :
    ∃ kind group, Node.kindOf catalog n = .ok kind ∧
      group = .declared n kind :: (if (Node.declared n kind).isConditional then n.branches.map (Node.ofBranch n) else []) ∧
      (group.map (·.id)).Nodup ∧ ∀ x ∈ group, ∃ v, g.node v = x := by
  obtain ⟨groups, hgroups, hflat⟩ := h.grouped
  obtain ⟨group, hg, hok⟩ := exists_of_forall₂_left hgroups n hn
  obtain ⟨kind, hkind, hgroup⟩ := Node.ofFlowNode_ok hok
  refine ⟨kind, group, hkind, hgroup, ?_, ?_⟩
  · refine h.distinct.sublist (List.Sublist.map _ ?_)
    rw [hflat]
    exact List.sublist_flatten_of_mem hg
  · intro x hx
    rw [← mem_nodes_iff, hflat]
    exact List.mem_flatten.2 ⟨group, hg, hx⟩

/-- A declared node has a position. -/
theorem declared (h : Indexes catalog nodes edges g) {n : Flow.Node} (hn : n ∈ nodes) :
    ∃ v kind, Node.kindOf catalog n = .ok kind ∧ g.node v = .declared n kind := by
  obtain ⟨kind, group, hkind, hgroup, -, hposition⟩ := h.group_of_declared hn
  obtain ⟨v, hv⟩ := hposition (.declared n kind) (by rw [hgroup]; exact List.mem_cons_self ..)
  exact ⟨v, kind, hkind, hv⟩

/-- A node that the catalog takes for conditional stands in the graph as such. -/
theorem kind_of_conditional (h : Indexes catalog nodes edges g) {n : Flow.Node} (hn : n ∈ nodes)
    (hshape : catalog.shapeOf? n.component = some .conditional) :
    ∃ ids v, Node.kindOf catalog n = .ok (.conditional ids) ∧ g.node v = .declared n (.conditional ids) := by
  obtain ⟨v, kind, hkind, hv⟩ := h.declared hn
  have hk := hkind
  rw [Node.kindOf, hshape] at hk
  simp only at hk
  split at hk
  · cases hk
  · cases hk
    exact ⟨_, v, hkind, hv⟩

/-- The branches of a declared conditional node have positions, and distinct ids. -/
theorem branches (h : Indexes catalog nodes edges g) {n : Flow.Node} (hn : n ∈ nodes) {ids : List String}
    (hk : Node.kindOf catalog n = .ok (.conditional ids)) :
    (n.branches.map (·.id)).Nodup ∧ ∀ b ∈ n.branches, ∃ v, g.node v = .ofBranch n b := by
  obtain ⟨kind, group, hkind, hgroup, hnd, hposition⟩ := h.group_of_declared hn
  rw [hk] at hkind
  cases hkind
  have hcond : (Node.declared n (.conditional ids)).isConditional = true := rfl
  rw [if_pos hcond] at hgroup
  subst hgroup
  constructor
  · have hids : (n.branches.map (Node.ofBranch n)).map (·.id) = n.branches.map (·.id) := by
      rw [List.map_map]
      rfl
    rw [List.map_cons, hids, List.nodup_cons] at hnd
    exact hnd.2
  · intro b hb
    exact hposition _ (List.mem_cons_of_mem _ (List.mem_map.2 ⟨b, hb, rfl⟩))

/-- A position holds a declared node or a branch of a declared conditional node. -/
theorem origin (h : Indexes catalog nodes edges g) (v : Fin g.size) :
    (∃ n ∈ nodes, ∃ kind, Node.kindOf catalog n = .ok kind ∧ g.node v = .declared n kind) ∨
      ∃ n ∈ nodes, (∃ ids, Node.kindOf catalog n = .ok (.conditional ids)) ∧ ∃ b ∈ n.branches, g.node v = .ofBranch n b := by
  obtain ⟨groups, hgroups, hflat⟩ := h.grouped
  have hv : g.node v ∈ g.nodes.toList := mem_nodes_iff.2 ⟨v, rfl⟩
  rw [hflat, List.mem_flatten] at hv
  obtain ⟨group, hg, hv⟩ := hv
  obtain ⟨n, hn, hok⟩ := exists_of_forall₂_left hgroups.flip group hg
  obtain ⟨kind, hkind, rfl⟩ := Node.ofFlowNode_ok hok
  rcases List.mem_cons.1 hv with hv | hv
  · exact Or.inl ⟨n, hn, kind, hkind, hv⟩
  · split at hv
    · obtain ⟨b, hb, he⟩ := List.mem_map.1 hv
      cases kind with
      | conditional ids => exact Or.inr ⟨n, hn, ⟨ids, hkind⟩, b, hb, he.symm⟩
      | _ => rename_i hc; cases hc
    · simp at hv

/-- The positions that hold declared nodes, in the order of registration, have their ids in the order of the declaration. -/
@[simp] theorem map_idAt_declared (h : Indexes catalog nodes edges g) :
    (g.vertices.filter fun v => !(g.node v).isBranch).map g.idAt = nodes.map (·.id) := by
  obtain ⟨groups, hgroups, hflat⟩ := h.grouped
  have hnodes : g.vertices.map g.node = groups.flatten := by
    rw [← hflat]
    refine List.ext_getElem (by simp [vertices]) fun i h₁ h₂ => ?_
    simp [vertices, node, Vector.get]
  have hids : ((g.vertices.map g.node).filter fun x => !x.isBranch).map (·.id) = nodes.map (·.id) := by
    rw [hnodes]
    clear hnodes hflat h
    induction hgroups with
    | nil => rfl
    | @cons n group _ _ hok _ ih =>
      obtain ⟨kind, hkind, rfl⟩ := Node.ofFlowNode_ok hok
      have hbranches : ∀ x ∈ (if (Node.declared n kind).isConditional then n.branches.map (Node.ofBranch n) else []),
          x.isBranch = true := by
        intro x hx
        split at hx
        · obtain ⟨b, -, rfl⟩ := List.mem_map.1 hx
          rfl
        · cases hx
      rw [List.flatten_cons, List.filter_append, List.filter_cons, Node.isBranch_declared hkind,
        List.filter_eq_nil_iff.2 fun x hx => by simp [hbranches x hx], List.map_append, ih]
      rfl
  rw [List.filter_map, List.map_map] at hids
  exact hids

/-- Nodes are declared under distinct ids. -/
theorem nodup_declared (h : Indexes catalog nodes edges g) : (nodes.map (·.id)).Nodup := by
  rw [← h.map_idAt_declared]
  exact ((List.nodup_finRange g.size).filter _).map fun _ _ => h.ids_injective

/-- A conditional position holds a declared conditional node. -/
theorem conditional_origin (h : Indexes catalog nodes edges g) {v : Fin g.size} {ids : List String}
    (hk : (g.node v).kind = .conditional ids) :
    ∃ n ∈ nodes, Node.kindOf catalog n = .ok (.conditional ids) ∧ g.node v = .declared n (.conditional ids) := by
  rcases h.origin v with ⟨n, hn, kind, hkind, hv⟩ | ⟨n, -, -, b, -, hv⟩
  · rw [hv] at hk
    cases hk
    exact ⟨n, hn, hkind, hv⟩
  · rw [hv] at hk
    cases hk

/-- A position of a branch holds a branch of a declared conditional node. -/
theorem branch_origin (h : Indexes catalog nodes edges g) {w : Fin g.size} {parent : String} {condition : Option String}
    (hk : (g.node w).kind = .branch parent condition) :
    ∃ n ∈ nodes, (∃ ids, Node.kindOf catalog n = .ok (.conditional ids)) ∧ parent = n.id ∧
      ∃ b ∈ n.branches, g.node w = .ofBranch n b := by
  rcases h.origin w with ⟨n, hn, kind, hkind, hw⟩ | ⟨n, hn, hcond, b, hb, hw⟩
  · rw [hw] at hk
    rcases Node.kindOf_ok hkind with ⟨rfl, -⟩ | rfl | rfl <;> cases hk
  · rw [hw] at hk
    cases hk
    exact ⟨n, hn, hcond, rfl, b, hb, hw⟩

/-! ## Links -/

/-- Predecessors and successors are converse. -/
theorem mem_predecessorsAt_iff (h : Indexes catalog nodes edges g) {v w : Fin g.size} :
    v ∈ g.predecessorsAt w ↔ w ∈ g.successorsAt v := by
  obtain ⟨links, -, hadj⟩ := h.linked
  unfold predecessorsAt successorsAt
  rw [hadj, Adjacency.predecessors_ofLinks, Adjacency.successors_ofLinks, Adjacency.mem_sources, Adjacency.mem_targets]

/-- A link is kept once, however often edges say it. -/
theorem nodup_successorsAt (h : Indexes catalog nodes edges g) (v : Fin g.size) : (g.successorsAt v).Nodup := by
  obtain ⟨links, -, hadj⟩ := h.linked
  unfold successorsAt
  rw [hadj, Adjacency.successors_ofLinks]
  exact Adjacency.nodup_targets _ _

theorem nodup_predecessorsAt (h : Indexes catalog nodes edges g) (w : Fin g.size) : (g.predecessorsAt w).Nodup := by
  obtain ⟨links, -, hadj⟩ := h.linked
  unfold predecessorsAt
  rw [hadj, Adjacency.predecessors_ofLinks]
  exact Adjacency.nodup_targets _ _

end Indexes

end FlowPlan.Graph
