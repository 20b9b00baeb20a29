import FlowPlan.Proofs.Flow.Growth
import FlowPlan.Proofs.Generator.Naming

/-!
# What a generator makes

`Generator.Makes` says of a part of the making of a flow, whatever has been made before, what nodes and edges it adds and how they
hang together with its result. With dice that are fair, a stage is a growth from its tail (`Generator.Stage`), and a flow is a start
node, its stages one behind the other, and an end node (`Generator.Outline`, `Generator.outline_flowFrom`).
-/

namespace FlowPlan.Generator

open FlowPlan.Flow

/-! ## Nodes -/

/-- A node as a generator makes it: a plain one, or a conditional one with branches of its own. -/
inductive Made : Flow.Node → Prop
  | plain {n} : NodeCatalog.standard.shapeOf? n.component = some .plain → n.branches = [] → Made n
  | choice {n count withOtherwise} : n.component = "choice" → 2 ≤ count →
      n.branches = (List.range count).map (branchAt n.id count withOtherwise) → Made n

/-- Nodes as a generator makes them, numbered from the number behind `k` on. -/
structure Numbered (k : Nat) (nodes : List Flow.Node) : Prop where
  ids : nodes.map (·.id) = (List.range' (k + 1) nodes.length).map idOf
  made : ∀ n ∈ nodes, Made n

theorem Numbered.nil (k : Nat) : Numbered k [] :=
  ⟨rfl, by simp⟩

/-- Nodes go on behind the number of the last one. -/
theorem Numbered.append {k : Nat} {nodes nodes' : List Flow.Node} (h : Numbered k nodes)
    (h' : Numbered (k + nodes.length) nodes') : Numbered k (nodes ++ nodes') where
  ids := by
    rw [List.map_append, h.ids, h'.ids, List.length_append, ← List.range'_append_1, List.map_append, Nat.add_right_comm]
  made := by
    intro n hn
    exact (List.mem_append.1 hn).elim (h.made n) (h'.made n)

/-- A single node has the next number. -/
theorem Numbered.singleton {k : Nat} {n : Flow.Node} (hid : n.id = idOf (k + 1)) (h : Made n) : Numbered k [n] :=
  ⟨congrArg (· :: []) hid, by simpa using h⟩

/-! ## Parts of the making of a flow -/

variable {σ α β : Type}

/-- From one state to the other so many nodes and edges are added. -/
structure Adds (before after : Generator σ) (nodes : List Flow.Node) (edges : List Flow.Edge) : Prop where
  nodes_eq : after.nodes = nodes.reverse ++ before.nodes
  edges_eq : after.edges = edges.reverse ++ before.edges
  counter_eq : after.counter = before.counter + nodes.length
  numbered : Numbered before.counter nodes

/-- What two parts add, one after the other. -/
theorem Adds.trans {g g' g'' : Generator σ} {nodes nodes' : List Flow.Node} {edges edges' : List Flow.Edge}
    (h : Adds g g' nodes edges) (h' : Adds g' g'' nodes' edges') : Adds g g'' (nodes ++ nodes') (edges ++ edges') where
  nodes_eq := by rw [h'.nodes_eq, h.nodes_eq, List.reverse_append, List.append_assoc]
  edges_eq := by rw [h'.edges_eq, h.edges_eq, List.reverse_append, List.append_assoc]
  counter_eq := by rw [h'.counter_eq, h.counter_eq, List.length_append, Nat.add_assoc]
  numbered := h.numbered.append (h.counter_eq ▸ h'.numbered)

/-- In every state a part adds nodes and edges of which, with its result, the property holds. -/
def Makes (m : Make σ α) (P : α → List Flow.Node → List Flow.Edge → Prop) : Prop :=
  ∀ g, ∃ nodes edges, Adds g (m.run g).2 nodes edges ∧ P (m.run g).1 nodes edges

namespace Makes

variable {m : Make σ α} {k : α → Make σ β} {P : α → List Flow.Node → List Flow.Edge → Prop}
  {Q : β → List Flow.Node → List Flow.Edge → Prop}

theorem mono {P' : α → List Flow.Node → List Flow.Edge → Prop} (h : Makes m P)
    (hP : ∀ a nodes edges, P a nodes edges → P' a nodes edges) : Makes m P' := by
  intro g
  obtain ⟨nodes, edges, hadds, hresult⟩ := h g
  exact ⟨nodes, edges, hadds, hP _ _ _ hresult⟩

theorem result {a : α} (h : P a [] []) : Makes (pure a : Make σ α) P :=
  fun _ => ⟨[], [], ⟨rfl, rfl, rfl, .nil _⟩, h⟩

/-- What is made one after the other stands one behind the other. -/
theorem bind (h : Makes m P)
    (hk : ∀ a nodes edges, P a nodes edges → Makes (k a) fun b nodes' edges' => Q b (nodes ++ nodes') (edges ++ edges')) :
    Makes (m >>= k) Q := by
  intro g
  obtain ⟨nodes, edges, hadds, hresult⟩ := h g
  obtain ⟨nodes', edges', hadds', hresult'⟩ := hk _ _ _ hresult (m.run g).2
  exact ⟨_, _, hadds.trans hadds', hresult'⟩

variable {dice : Random.Dice σ}

/-- A flip of a coin adds nothing, and either side may come up. -/
theorem bind_flip {tenths : Nat} {k : Bool → Make σ β} (hk : ∀ b, Makes (k b) Q) : Makes (flip dice tenths >>= k) Q := by
  refine bind (P := fun _ nodes edges => nodes = [] ∧ edges = []) (fun g => ?_) ?_
  · exact ⟨[], [], ⟨rfl, rfl, rfl, .nil _⟩, rfl, rfl⟩
  · rintro b _ _ ⟨rfl, rfl⟩
    exact hk b

/-- A pick adds nothing, and keeps to its range when the dice are fair. -/
theorem bind_pick (hd : dice.Fair) {low high : Nat} (hle : low ≤ high) {k : Nat → Make σ β}
    (hk : ∀ n, low ≤ n → n ≤ high → Makes (k n) Q) : Makes (pick dice low high >>= k) Q := by
  refine bind (P := fun n nodes edges => (low ≤ n ∧ n ≤ high) ∧ nodes = [] ∧ edges = []) (fun g => ?_) ?_
  · exact ⟨[], [], ⟨rfl, rfl, rfl, .nil _⟩, hd low high g.state hle, rfl, rfl⟩
  · rintro n _ _ ⟨⟨hlow, hhigh⟩, rfl, rfl⟩
    exact hk n hlow hhigh

/-- An edge is added before all that comes after it. -/
theorem bind_edge {e : Flow.Edge} {k : Unit → Make σ β} (hk : Makes (k ()) fun b nodes edges => Q b nodes (e :: edges)) :
    Makes (addEdge e >>= k) Q := by
  refine bind (P := fun _ nodes edges => nodes = [] ∧ edges = [e]) (fun g => ?_) ?_
  · exact ⟨[], [e], ⟨rfl, rfl, rfl, .nil _⟩, rfl, rfl⟩
  · rintro _ _ _ ⟨rfl, rfl⟩
    exact hk

/-- A node is added under a new id, which is all that the rest learns of it. -/
theorem bind_node {component : String} {parameters : Dict Json} {k : String → Make σ β}
    (hc : NodeCatalog.standard.shapeOf? component = some .plain)
    (hk : ∀ n : Flow.Node, n.component = component → n.branches = [] →
      Makes (k n.id) fun b nodes edges => Q b (n :: nodes) edges) : Makes (node component parameters >>= k) Q := by
  refine bind (P := fun id nodes edges => ∃ n : Flow.Node, (n.component = component ∧ n.branches = []) ∧ id = n.id ∧
    nodes = [n] ∧ edges = []) (fun g => ?_) ?_
  · exact ⟨[_], [], ⟨rfl, rfl, rfl, .singleton rfl (.plain hc rfl)⟩, _, ⟨rfl, rfl⟩, rfl, rfl, rfl⟩
  · rintro _ _ _ ⟨n, ⟨hcomponent, hplain⟩, rfl, rfl, rfl⟩
    exact hk n hcomponent hplain

/-- A plain node of whatever component the dice pick. -/
theorem bind_plain (hd : dice.Fair) {k : String → Make σ β}
    (hk : ∀ n : Flow.Node, n.branches = [] → Makes (k n.id) fun b nodes edges => Q b (n :: nodes) edges) :
    Makes (plain dice >>= k) Q := by
  have hcomponents : ∀ i, i ≤ plainComponents.length - 1 →
      NodeCatalog.standard.shapeOf? (plainComponents.getD i "") = some .plain := by decide
  have hplain : Makes (plain dice) fun id nodes edges => ∃ n : Flow.Node, n.branches = [] ∧ id = n.id ∧
      nodes = [n] ∧ edges = [] := by
    refine bind_pick hd (Nat.zero_le _) fun i _ hi => bind_pick hd (by decide) fun weight _ _ => ?_
    rw [← bind_pure (node _ _)]
    exact bind_node (hcomponents i hi) fun n _ hn => result ⟨n, hn, rfl, rfl, rfl⟩
  refine bind hplain ?_
  rintro _ _ _ ⟨n, hn, rfl, rfl, rfl⟩
  exact hk n hn

/-- A conditional node has one branch or more, and is entered from the node before it. -/
theorem bind_conditional {count : Nat} (hcount : 2 ≤ count) {start : String} {k : Flow.Node → Make σ β}
    (hk : ∀ n : Flow.Node, n.branches ≠ [] →
      Makes (k n) fun b nodes edges => Q b (n :: nodes) ({ source := start, target := n.id } :: edges)) :
    Makes (conditional dice count start >>= k) Q := by
  refine bind (P := fun n nodes edges => n.branches ≠ [] ∧ nodes = [n] ∧ edges = [{ source := start, target := n.id }])
    (fun g => ?_) ?_
  · refine ⟨_, _, ⟨rfl, rfl, rfl, .singleton rfl (.choice rfl hcount rfl)⟩, ?_, rfl, rfl⟩
    change (List.range count).map _ ≠ []
    rw [Ne, List.map_eq_nil_iff, List.range_eq_nil]
    omega
  · rintro n _ _ ⟨hbranches, rfl, rfl⟩
    exact hk n hbranches

end Makes

/-! ## Stages -/

/-- Nodes that end with a plain one, which has the id `last`. -/
def EndsAt (nodes : List Flow.Node) (last : String) : Prop :=
  ∃ front n, nodes = front ++ [n] ∧ n.id = last ∧ n.branches = []

/-- What stands in front does not change where nodes end. -/
theorem EndsAt.append {nodes : List Flow.Node} {last : String} (h : EndsAt nodes last) (front : List Flow.Node) :
    EndsAt (front ++ nodes) last := by
  obtain ⟨before, n, rfl, hid, hplain⟩ := h
  exact ⟨front ++ before, n, (List.append_assoc ..).symm, hid, hplain⟩

/-- A part without conditional nodes, in which nothing is left or entered twice. -/
structure Straight (nodes : List Flow.Node) (forks : List Exit) (meets : List String) : Prop where
  plain : ∀ n ∈ nodes, n.branches = []
  forks_eq : forks = []
  meets_eq : meets = []

/-- A plain node in front of two straight parts, side by side. -/
theorem Straight.cons {n : Flow.Node} {nodes nodes' : List Flow.Node} {forks forks' : List Exit} {meets meets' : List String}
    (hn : n.branches = []) (h : Straight nodes forks meets) (h' : Straight nodes' forks' meets') :
    Straight (n :: (nodes ++ nodes')) (forks ++ forks') (meets ++ meets') where
  plain := List.forall_mem_cons.2 ⟨hn, List.forall_mem_append.2 ⟨h.plain, h'.plain⟩⟩
  forks_eq := by rw [h.forks_eq, h'.forks_eq, List.append_nil]
  meets_eq := by rw [h.meets_eq, h'.meets_eq, List.append_nil]

/-- A part that opens branches at one start at most, where they meet again at its end only. -/
structure Single (starts : List String) (tail last : String) (nodes : List Flow.Node) (forks : List Exit) (meets : List String) :
    Prop where
  one : starts.length ≤ 1
  place : ∀ u ∈ starts, u ∈ tail :: nodes.dropLast.map (·.id)
  choices : ∀ n ∈ nodes, n.branches ≠ [] → n.id ∈ starts
  forked : ∀ x ∈ forks, x.id ∈ starts
  met : ∀ id ∈ meets, id = last

/-- A part without branches has no start. -/
theorem Single.of_straight {tail last : String} {nodes : List Flow.Node} (hplain : ∀ n ∈ nodes, n.branches = []) :
    Single [] tail last nodes [] [] :=
  ⟨by simp, nofun, fun n hn hb => absurd (hplain n hn) hb, nofun, nofun⟩

/-- A stage behind the node `tail`, with structures nested at most so deep, up to the node `last`. -/
structure Stage (depth : Nat) (tail last : String) (nodes : List Flow.Node) (edges : List Flow.Edge) (forks : List Exit)
    (meets : List String) : Prop where
  growth : Growth [⟨tail, none⟩] nodes edges [⟨last, none⟩] forks meets
  ends : EndsAt nodes last
  straight : depth = 0 → Straight nodes forks meets
  single : depth ≤ 1 → ∃ starts, Single starts tail last nodes forks meets

/-- A stage that opens no branches. -/
theorem Stage.of_straight {depth : Nat} {tail last : String} {nodes : List Flow.Node} {edges : List Flow.Edge}
    (h : Growth [⟨tail, none⟩] nodes edges [⟨last, none⟩] [] []) (hends : EndsAt nodes last)
    (hplain : ∀ n ∈ nodes, n.branches = []) : Stage depth tail last nodes edges [] [] where
  growth := h
  ends := hends
  straight _ := ⟨hplain, rfl, rfl⟩
  single _ := ⟨[], .of_straight hplain⟩

/-- Stages side by side behind the exits of a structure, each behind a plain node of its own. -/
structure Limbs (depth : Nat) (roots : List Exit) (tails : List String) (nodes : List Flow.Node) (edges : List Flow.Edge)
    (forks : List Exit) (meets : List String) : Prop where
  growth : Growth roots nodes edges (tails.map fun tail => ⟨tail, none⟩) forks meets
  length_eq : tails.length = roots.length
  straight : depth = 0 → Straight nodes forks meets

theorem Limbs.nil (depth : Nat) : Limbs depth [] [] [] [] [] [] :=
  ⟨.rest [], rfl, fun _ => ⟨by simp, rfl, rfl⟩⟩

/-- A plain node and a stage behind one more exit, beside what stands behind the others. -/
theorem Limbs.cons {depth : Nat} {x : Exit} {n : Flow.Node} {tail : String} {roots : List Exit} {tails : List String}
    {nodes nodes' : List Flow.Node} {edges edges' : List Flow.Edge} {forks forks' : List Exit} {meets meets' : List String}
    (hn : n.branches = []) (h : Stage depth n.id tail nodes edges forks meets)
    (h' : Limbs depth roots tails nodes' edges' forks' meets') :
    Limbs depth (x :: roots) (tail :: tails) (n :: (nodes ++ nodes')) (x.edge n.id :: (edges ++ edges')) (forks ++ forks')
      (meets ++ meets') where
  growth := ((Growth.attach_plain hn).follow h.growth).beside h'.growth
  length_eq := congrArg (· + 1) h'.length_eq
  straight hdepth := (h.straight hdepth).cons hn (h'.straight hdepth)

/-- The branches of a structure end in one merge node. -/
theorem Limbs.close {depth : Nat} {roots : List Exit} {tails : List String} {nodes : List Flow.Node} {edges : List Flow.Edge}
    {forks : List Exit} {meets : List String} (h : Limbs depth roots tails nodes edges forks meets) (hroots : roots ≠ [])
    {n : Flow.Node} (hn : n.branches = []) :
    Growth roots (nodes ++ [n]) (edges ++ tails.map fun tail => ⟨tail, none, n.id⟩) [⟨n.id, none⟩] forks
      (meets ++ List.replicate (tails.length - 1) n.id) := by
  have htails : tails.map (fun tail => (⟨tail, none⟩ : Exit)) ≠ [] := by
    rw [Ne, List.map_eq_nil_iff, ← List.length_eq_zero_iff, h.length_eq, List.length_eq_zero_iff]
    exact hroots
  have hmerge := Growth.attach (n := n) htails
  rw [Node.exits_of_plain hn, List.map_map, List.length_map] at hmerge
  rw [← List.append_nil forks]
  exact h.growth.follow hmerge

/-- The branches of a fan-out with their merge node: the tail is left once for each branch, and the merge node entered as often. -/
theorem Limbs.parallel {depth count : Nat} {start : String} {tails : List String} {nodes : List Flow.Node} {edges : List Flow.Edge}
    {forks : List Exit} {meets : List String} (hcount : 1 ≤ count)
    (h : Limbs depth (List.replicate count ⟨start, none⟩) tails nodes edges forks meets) {n : Flow.Node} (hn : n.branches = []) :
    ∃ forks meets, Stage (depth + 1) start n.id (nodes ++ [n]) (edges ++ tails.map fun tail => ⟨tail, none, n.id⟩) forks meets := by
  obtain ⟨k, rfl⟩ := Nat.exists_eq_add_of_le' hcount
  refine ⟨_, _, (h.close (List.cons_ne_nil _ _) hn).share, ⟨nodes, n, rfl, rfl, hn⟩, nofun, fun hdepth => ?_⟩
  obtain ⟨hplain, rfl, rfl⟩ := h.straight (Nat.le_zero.1 (Nat.le_of_succ_le_succ hdepth))
  refine ⟨[start], Nat.le_refl 1, fun u hu => ?_, fun m hm hb => ?_, fun x hx => ?_, fun id hid => ?_⟩
  · exact List.mem_singleton.1 hu ▸ List.mem_cons_self ..
  · exact absurd (List.forall_mem_append.2 ⟨hplain, by simpa using hn⟩ m hm) hb
  · rw [List.append_nil] at hx
    rw [List.eq_of_mem_replicate hx]
    exact List.mem_singleton_self start
  · rw [List.nil_append] at hid
    exact List.eq_of_mem_replicate hid

/-- A conditional node with what follows its branches and their merge node. -/
theorem Limbs.choice {depth : Nat} {start : String} {c : Flow.Node} {tails : List String} {nodes : List Flow.Node}
    {edges : List Flow.Edge} {forks : List Exit} {meets : List String} (hc : c.branches ≠ [])
    (h : Limbs depth (c.branches.map fun b => ⟨c.id, some b.id⟩) tails nodes edges forks meets) {n : Flow.Node}
    (hn : n.branches = []) :
    ∃ forks meets, Stage (depth + 1) start n.id (c :: (nodes ++ [n]))
      ({ source := start, target := c.id } :: (edges ++ tails.map fun tail => ⟨tail, none, n.id⟩)) forks meets := by
  have hhead : Growth [⟨start, none⟩] [c] [{ source := start, target := c.id }]
      (c.branches.map fun b => ⟨c.id, some b.id⟩) [] [] :=
    Node.exits_of_branches hc ▸ Growth.attach (List.cons_ne_nil _ [])
  have hgrowth := hhead.follow (h.close (mt List.map_eq_nil_iff.1 hc) hn)
  refine ⟨_, _, hgrowth, ⟨c :: nodes, n, rfl, rfl, hn⟩, nofun, fun hdepth => ?_⟩
  obtain ⟨hplain, rfl, rfl⟩ := h.straight (Nat.le_zero.1 (Nat.le_of_succ_le_succ hdepth))
  refine ⟨[c.id], Nat.le_refl 1, fun u hu => ?_, fun m hm hb => ?_, by simp, fun id hid => ?_⟩
  · rw [List.mem_singleton.1 hu, ← List.cons_append, List.dropLast_concat]
    exact List.mem_cons_of_mem _ (List.mem_cons_self ..)
  · rcases List.mem_cons.1 hm with rfl | hm
    · exact List.mem_singleton_self _
    · exact absurd (List.forall_mem_append.2 ⟨hplain, by simpa using hn⟩ m hm) hb
  · rw [List.nil_append, List.nil_append] at hid
    exact List.eq_of_mem_replicate hid

section Stages

variable {dice : Random.Dice σ} (hd : dice.Fair)

include hd

/-- A straight run of plain nodes. -/
theorem makes_straight (n : Nat) (tail : String) : Makes (straight dice tail (n + 1)) fun last nodes edges =>
    Growth [⟨tail, none⟩] nodes edges [⟨last, none⟩] [] [] ∧ EndsAt nodes last ∧ ∀ n ∈ nodes, n.branches = [] := by
  induction n generalizing tail with
  | zero =>
    exact .bind_plain hd fun next hnext =>
      .bind_edge (.result ⟨.attach_plain hnext, ⟨[], next, rfl, rfl, hnext⟩, by simpa using hnext⟩)
  | succ n ih =>
    refine .bind_plain hd fun next hnext => .bind_edge ((ih next.id).mono ?_)
    rintro last nodes edges ⟨hgrowth, hends, hplain⟩
    exact ⟨(Growth.attach_plain hnext).follow hgrowth, hends.append [next], List.forall_mem_cons.2 ⟨hnext, hplain⟩⟩

/-- A sequence is a stage without a structure. -/
theorem makes_sequence (depth : Nat) (tail : String) :
    Makes (sequence dice tail) fun last nodes edges => Stage depth tail last nodes edges [] [] := by
  refine .bind_pick hd (by decide) fun n hn _ => ?_
  obtain ⟨n, rfl⟩ := Nat.exists_eq_add_of_le' hn
  exact (makes_straight hd n tail).mono fun last nodes edges ⟨hgrowth, hends, hplain⟩ => .of_straight hgrowth hends hplain

omit hd in
/-- Edges from so many nodes to one. -/
theorem makes_links (id : String) (tails : List String) : Makes (tails.forM (link · id) : Make σ PUnit) fun _ nodes edges =>
    nodes = [] ∧ edges = tails.map fun tail => ⟨tail, none, id⟩ := by
  induction tails with
  | nil => exact .result ⟨rfl, rfl⟩
  | cons tail rest ih =>
    refine .bind_edge (ih.mono ?_)
    rintro _ _ _ ⟨rfl, rfl⟩
    exact ⟨rfl, rfl⟩

omit hd in
/-- A merge node is a plain one, entered from the end of each branch. -/
theorem makes_merge (tails : List String) : Makes (merge tails : Make σ String) fun id nodes edges =>
    ∃ n : Flow.Node, n.branches = [] ∧ id = n.id ∧ nodes = [n] ∧ edges = tails.map fun tail => ⟨tail, none, n.id⟩ := by
  refine .bind_node (by decide) fun n _ hn => (makes_links n.id tails).bind ?_
  rintro _ _ _ ⟨rfl, rfl⟩
  exact .result ⟨n, hn, rfl, rfl, by simp⟩

variable {depth : Nat} {inner : String → Make σ String}
  (hinner : ∀ head, Makes (inner head) fun last nodes edges => ∃ forks meets, Stage depth head last nodes edges forks meets)

include hinner

/-- One more branch: a plain node behind an exit, a stage behind the node, and the other branches beside it. -/
theorem makes_limb (x : Exit) {roots : List Exit} {others : Make σ (List String)}
    (hothers : Makes others fun tails nodes edges => ∃ forks meets, Limbs depth roots tails nodes edges forks meets) :
    Makes (do
      let head ← plain dice
      addEdge (x.edge head)
      let tail ← inner head
      let tails ← others
      return tail :: tails) fun tails nodes edges => ∃ forks meets, Limbs depth (x :: roots) tails nodes edges forks meets := by
  refine .bind_plain hd fun head hhead => .bind_edge ((hinner head.id).bind ?_)
  rintro tail nodes edges ⟨forks, meets, hstage⟩
  refine hothers.bind ?_
  rintro tails nodes' edges' ⟨forks', meets', hlimbs⟩
  refine .result ⟨forks ++ forks', meets ++ meets', ?_⟩
  rw [List.append_nil, List.append_nil]
  exact hlimbs.cons hhead hstage

/-- Lanes are limbs behind one node, by induction on their number. -/
theorem makes_lanes (start : String) (n : Nat) : Makes (lanes dice inner start n) fun tails nodes edges =>
    ∃ forks meets, Limbs depth (List.replicate n ⟨start, none⟩) tails nodes edges forks meets := by
  induction n with
  | zero => exact .result ⟨[], [], .nil depth⟩
  | succ n ih =>
    exact makes_limb hd hinner ⟨start, none⟩ ih

/-- Arms are limbs behind the branches of a node, by induction on the list of them. -/
theorem makes_arms (id : String) (branches : List Branch) : Makes (arms dice inner id branches) fun tails nodes edges =>
    ∃ forks meets, Limbs depth (branches.map fun b => ⟨id, some b.id⟩) tails nodes edges forks meets := by
  induction branches with
  | nil => exact .result ⟨[], [], .nil depth⟩
  | cons branch rest ih =>
    exact makes_limb hd hinner ⟨id, some branch.id⟩ ih

variable {width : Nat} (hw : 2 ≤ width)

include hw

/-- A fan-out leaves its tail once for each branch, and its merge node is entered as often. -/
theorem makes_parallel (start : String) : Makes (parallel dice width inner start) fun last nodes edges =>
    ∃ forks meets, Stage (depth + 1) start last nodes edges forks meets := by
  refine .bind_pick hd hw fun count hcount _ => (makes_lanes hd hinner start count).bind ?_
  rintro tails nodes edges ⟨forks, meets, hlanes⟩
  refine (makes_merge tails).mono ?_
  rintro _ _ _ ⟨n, hn, rfl, rfl, rfl⟩
  exact hlanes.parallel (Nat.le_of_succ_le hcount) hn

/-- A conditional node is left by each of its branches, which meet in one merge node. -/
theorem makes_choice (start : String) : Makes (choice dice width inner start) fun last nodes edges =>
    ∃ forks meets, Stage (depth + 1) start last nodes edges forks meets := by
  refine .bind_pick hd hw fun count hcount _ => .bind_conditional hcount fun c hc => ?_
  refine (makes_arms hd hinner c.id c.branches).bind ?_
  rintro tails nodes edges ⟨forks, meets, harms⟩
  refine (makes_merge tails).mono ?_
  rintro _ _ _ ⟨n, hn, rfl, rfl, rfl⟩
  exact harms.choice hc hn

omit hinner in
/-- With fair dice a stage is a growth from its tail, whatever the dice decide. -/
theorem makes_stage (depth : Nat) (tail : String) : Makes (stage dice width depth tail) fun last nodes edges =>
    ∃ forks meets, Stage depth tail last nodes edges forks meets := by
  induction depth generalizing tail with
  | zero => exact (makes_sequence hd 0 tail).mono fun last nodes edges h => ⟨[], [], h⟩
  | succ depth ih =>
    refine .bind_flip fun straight => ?_
    cases straight with
    | true => exact (makes_sequence hd (depth + 1) tail).mono fun last nodes edges h => ⟨[], [], h⟩
    | false =>
      refine .bind_flip fun fans => ?_
      cases fans with
      | true => exact makes_parallel hd ih hw tail
      | false => exact makes_choice hd ih hw tail

end Stages

/-! ## Flows -/

/-- The flow that a generator makes from a state of its dice and the number of the latest node. -/
def flowFrom (dice : Random.Dice σ) (width : Nat) (id : String) (depth count : Nat) (state : σ) (counter : Nat) : Flow :=
  ((generate dice width id depth count).run { state := state, counter := counter }).1

/-- So many stages one behind the other. -/
inductive Row (depth : Nat) : Nat → (tail last : String) → List Flow.Node → List Flow.Edge → Prop
  | nil {tail} : Row depth 0 tail tail [] []
  | cons {count tail next last nodes nodes' edges edges' forks meets} :
      Stage depth tail next nodes edges forks meets → Row depth count next last nodes' edges' →
      Row depth (count + 1) tail last (nodes ++ nodes') (edges ++ edges')

/-- A flow in stages, with nodes numbered from the one behind `k` on: a start node, the stages, and an end node. -/
structure Outline (k depth count : Nat) (f : Flow) (start finish : Flow.Node) : Prop where
  start_component : start.component = "start"
  start_branches : start.branches = []
  finish_component : finish.component = "end"
  finish_branches : finish.branches = []
  numbered : Numbered k f.nodes
  row : ∃ last nodes edges, Row depth count start.id last nodes edges ∧ f.nodes = start :: (nodes ++ [finish]) ∧
    f.edges = edges ++ [{ source := last, target := finish.id }]

/-- Stages in a row are one part of a flow. -/
theorem Row.growth {depth count : Nat} {tail last : String} {nodes : List Flow.Node} {edges : List Flow.Edge}
    (h : Row depth count tail last nodes edges) :
    ∃ forks meets, Growth [⟨tail, none⟩] nodes edges [⟨last, none⟩] forks meets := by
  induction h with
  | nil => exact ⟨[], [], .rest _⟩
  | cons hstage _ ih =>
    obtain ⟨forks, meets, h⟩ := ih
    exact ⟨_, _, hstage.growth.follow h⟩

namespace Outline

variable {k depth count : Nat} {f : Flow} {start finish : Flow.Node}

/-- All that follows the start node grows from it, up to the end node. -/
theorem growth (h : Outline k depth count f start finish) : ∃ later forks meets, f.nodes = start :: (later ++ [finish]) ∧
    Growth [⟨start.id, none⟩] (later ++ [finish]) f.edges [⟨finish.id, none⟩] forks meets := by
  obtain ⟨last, nodes, edges, hrow, hnodes, hedges⟩ := h.row
  obtain ⟨forks, meets, hgrowth⟩ := hrow.growth
  exact ⟨nodes, _, _, hnodes, hedges ▸ hgrowth.follow (.attach_plain h.finish_branches)⟩

end Outline

section Flows

variable {dice : Random.Dice σ} (hd : dice.Fair) {width : Nat} (hw : 2 ≤ width)

include hd hw

/-- Stages are made in a row, by induction on their number. -/
theorem makes_stages (depth count : Nat) (tail : String) :
    Makes (stages dice width depth tail count) fun last nodes edges => Row depth count tail last nodes edges := by
  induction count generalizing tail with
  | zero => exact .result .nil
  | succ count ih =>
    refine (makes_stage hd hw depth tail).bind ?_
    rintro next nodes edges ⟨forks, meets, hstage⟩
    exact (ih next).mono fun last nodes' edges' hrow => .cons hstage hrow

/-- What is made of a flow is a start node, its stages one behind the other, and an end node. -/
theorem makes_trunk (depth count : Nat) : Makes (trunk dice width depth count) fun _ nodes edges =>
    ∃ (start finish : Flow.Node) (last : String) (middle : List Flow.Node) (edges' : List Flow.Edge),
      (start.component = "start" ∧ start.branches = []) ∧ (finish.component = "end" ∧ finish.branches = []) ∧
        Row depth count start.id last middle edges' ∧ nodes = start :: (middle ++ [finish]) ∧
          edges = edges' ++ [{ source := last, target := finish.id }] := by
  refine .bind_node (by decide) fun start hstart hplain => (makes_stages hd hw depth count start.id).bind ?_
  intro last middle edges' hrow
  refine .bind_node (by decide) fun finish hfinish hplain' => ?_
  rw [← bind_pure (link _ _)]
  exact .bind_edge (.result ⟨start, finish, last, middle, edges', ⟨hstart, hplain⟩, ⟨hfinish, hplain'⟩, hrow, rfl, rfl⟩)

omit hd hw in
/-- A flow has the nodes and edges that are made for it, in the order in which they are made. -/
theorem flowFrom_eq {id : String} {depth count : Nat} {state : σ} {counter : Nat} {nodes : List Flow.Node}
    {edges : List Flow.Edge}
    (h : Adds { state := state, counter := counter } ((trunk dice width depth count).run { state := state, counter := counter }).2
      nodes edges) : flowFrom dice width id depth count state counter = ⟨id, nodes, edges⟩ := by
  change Flow.mk id ((trunk dice width depth count).run _).2.nodes.reverse
    ((trunk dice width depth count).run _).2.edges.reverse = _
  rw [h.nodes_eq, h.edges_eq, List.append_nil, List.append_nil, List.reverse_reverse, List.reverse_reverse]

/-- A generator with fair dice makes a flow in stages, whatever the dice decide. -/
theorem outline_flowFrom (id : String) (depth count : Nat) (state : σ) (counter : Nat) :
    ∃ start finish, Outline counter depth count (flowFrom dice width id depth count state counter) start finish := by
  obtain ⟨nodes, edges, hadds, start, finish, last, middle, edges', ⟨hstart, hplain⟩, ⟨hfinish, hplain'⟩, hrow, hnodes, hedges⟩ :=
    makes_trunk hd hw depth count { state := state, counter := counter }
  rw [flowFrom_eq hadds]
  exact ⟨start, finish, hstart, hplain, hfinish, hplain', hadds.numbered, last, middle, edges', hrow, hnodes, hedges⟩

end Flows

end FlowPlan.Generator
