/-!
# Adjacency

An `Adjacency` holds the successors and the predecessors of `n` nodes, each without repetition and in the order in which the
links were made. `reaches` searches for a node that another one leads to by one link or more; `reachSet` marks all of them.
-/

namespace FlowPlan.Graph

/-- The successors and predecessors of `n` nodes. -/
structure Adjacency (n : Nat) where
  successors : Vector (List (Fin n)) n
  predecessors : Vector (List (Fin n)) n
  deriving Repr

namespace Adjacency

variable {n : Nat}

/-- No links at all. -/
def empty (n : Nat) : Adjacency n where
  successors := .replicate n []
  predecessors := .replicate n []

/-- Adds a link, unless it is there. -/
def link (a : Adjacency n) (source target : Fin n) : Adjacency n :=
  if (a.successors.get source).contains target then a
  else
    { successors := a.successors.set source (a.successors.get source ++ [target])
      predecessors := a.predecessors.set target (a.predecessors.get target ++ [source]) }

/-- The adjacency of links made in order. -/
def ofLinks (links : List (Fin n × Fin n)) : Adjacency n :=
  links.foldl (fun a l => a.link l.1 l.2) (empty n)

/-- How many links there are. -/
def linkCount (a : Adjacency n) : Nat :=
  a.successors.toList.foldl (fun count targets => count + targets.length) 0

/-- Whether several links leave a node: it opens branches. -/
def isBranchStart (a : Adjacency n) (v : Fin n) : Bool :=
  1 < (a.successors.get v).length

/-- Whether several links enter a node: branches may end there. -/
def isBranchEnd (a : Adjacency n) (v : Fin n) : Bool :=
  1 < (a.predecessors.get v).length

/-! ## Marks -/

/-- The entry of a node after an entry is set. -/
@[simp] theorem get_set {α : Type} (entries : Vector α n) (v w : Fin n) (a : α) :
    (entries.set v a).get w = if v = w then a else entries.get w := by
  change (entries.set v a)[w.val] = if v = w then a else entries[w.val]
  rw [Vector.getElem_set]
  simp only [Fin.ext_iff]

section Selection

variable {α β : Type} {f : α → List β} {p q : α → Bool}

/-- A selection has no more images than one that takes up all of its elements. -/
theorem length_flatMap_filter_le (sub : ∀ x, q x → p x) (l : List α) :
    ((l.filter q).flatMap f).length ≤ ((l.filter p).flatMap f).length := by
  induction l with
  | nil => exact Nat.le_refl _
  | cons x rest ih =>
    by_cases hq : q x
    · rw [List.filter_cons_of_pos hq, List.filter_cons_of_pos (sub x hq)]
      simp only [List.flatMap_cons, List.length_append]
      omega
    · rw [List.filter_cons_of_neg hq]
      by_cases hp : p x
      · rw [List.filter_cons_of_pos hp, List.flatMap_cons, List.length_append]
        exact Nat.le_add_left_of_le ih
      · rw [List.filter_cons_of_neg hp]
        exact ih

/-- A selection that leaves out one element more has at least the images of that element less. -/
theorem length_flatMap_filter_add_le {l : List α} {a : α} (sub : ∀ x, q x → p x) (mem : a ∈ l) (hp : p a) (hq : ¬ q a) :
    ((l.filter q).flatMap f).length + (f a).length ≤ ((l.filter p).flatMap f).length := by
  induction l with
  | nil => simp at mem
  | cons x rest ih =>
    rcases List.mem_cons.1 mem with rfl | inRest
    · have below := length_flatMap_filter_le (f := f) sub rest
      rw [List.filter_cons_of_pos hp, List.filter_cons_of_neg hq, List.flatMap_cons, List.length_append]
      omega
    · have tail := ih inRest
      by_cases hx : q x
      · rw [List.filter_cons_of_pos hx, List.filter_cons_of_pos (sub x hx)]
        simp only [List.flatMap_cons, List.length_append]
        omega
      · rw [List.filter_cons_of_neg hx]
        by_cases hy : p x
        · rw [List.filter_cons_of_pos hy, List.flatMap_cons, List.length_append]
          exact Nat.le_add_left_of_le tail
        · rw [List.filter_cons_of_neg hy]
          exact tail

/-- A selection that leaves out one element more is shorter. -/
theorem length_filter_lt {l : List α} {a : α} (sub : ∀ x, q x → p x) (mem : a ∈ l) (hp : p a) (hq : ¬ q a) :
    (l.filter q).length < (l.filter p).length := by
  have less := length_flatMap_filter_add_le (f := fun x => [x]) sub mem hp hq
  rwa [List.flatMap_singleton', List.flatMap_singleton'] at less

end Selection

/-- The nodes that are not marked. -/
def unmarked (marked : Vector Bool n) : List (Fin n) :=
  (List.finRange n).filter fun v => !marked.get v

section Marking

variable {marked : Vector Bool n} {v : Fin n}

/-- What is not marked after a node was marked was not marked before. -/
theorem unmarked_of_set (w : Fin n) (h : (!(marked.set v true).get w) = true) : (!marked.get w) = true := by
  rw [get_set] at h
  split at h
  · simp at h
  · exact h

/-- A node that is marked is off. -/
theorem not_unmarked_set : ¬ (!(marked.set v true).get v) = true := by
  simp

/-- A mark leaves fewer nodes without one, by which the search ends. -/
theorem length_unmarked_set_lt (h : marked.get v = false) : (unmarked (marked.set v true)).length < (unmarked marked).length :=
  length_filter_lt unmarked_of_set (List.mem_finRange v) (by simp [h]) not_unmarked_set

end Marking

/-! ## Reachability -/

/-- Goes through nodes in order. Ends without a result when it comes to the target; other nodes that are not marked are marked and join
the queue. -/
def enqueue (target : Fin n) (marked : Vector Bool n) (queue : List (Fin n)) :
    List (Fin n) → Option (Vector Bool n × List (Fin n))
  | [] => some (marked, queue)
  | next :: rest =>
    if next = target then none
    else if marked.get next then enqueue target marked queue rest
    else enqueue target (marked.set next true) (queue ++ [next]) rest

/-- How much a search may still take up: the nodes that are not marked, and those in the queue. -/
def ahead (marked : Vector Bool n) (queue : List (Fin n)) : Nat :=
  (unmarked marked).length + queue.length

/-- A node joins the queue as it is marked. -/
theorem ahead_enqueue {target : Fin n} {marked marked' : Vector Bool n} {queue queue' nodes : List (Fin n)}
    (h : enqueue target marked queue nodes = some (marked', queue')) : ahead marked' queue' ≤ ahead marked queue := by
  induction nodes generalizing marked queue with
  | nil =>
    cases h
    exact Nat.le_refl _
  | cons next rest ih =>
    rw [enqueue] at h
    split at h
    · cases h
    · split at h
      · exact ih h
      · rename_i hnext
        have less := length_unmarked_set_lt (Bool.eq_false_iff.2 hnext)
        have later := ih h
        simp only [ahead, List.length_append, List.length_singleton] at later ⊢
        omega

/-- Searches for the target breadth first, from the nodes in the queue on. -/
def search (a : Adjacency n) (target : Fin n) (marked : Vector Bool n) (queue : List (Fin n)) : Bool :=
  match queue with
  | [] => false
  | current :: rest =>
    match _h : enqueue target marked rest (a.successors.get current) with
    | none => true
    | some (marked, queue) => search a target marked queue
termination_by ahead marked queue
decreasing_by
  have := ahead_enqueue _h
  simp only [ahead, List.length_cons] at this ⊢
  omega

/-- Whether one link or more lead from `v` to `w`. -/
def reaches (a : Adjacency n) (v w : Fin n) : Bool :=
  a.search w ((Vector.replicate n false).set v true) [v]

/-- What a sweep may still take up: the nodes that are not marked, each with its successors behind it. -/
def unswept (a : Adjacency n) (marked : Vector Bool n) : List (Fin n) :=
  (unmarked marked).flatMap fun v => v :: a.successors.get v

/-- Marking a node takes it and its successors off. -/
theorem length_unswept_set_lt (a : Adjacency n) {marked : Vector Bool n} {v : Fin n} (h : marked.get v = false) :
    (a.unswept (marked.set v true)).length + (a.successors.get v).length < (a.unswept marked).length := by
  have hv : (!marked.get v) = true := by rw [h]; rfl
  have taken := length_flatMap_filter_add_le (f := fun w => w :: a.successors.get w) (p := fun w => !marked.get w)
    unmarked_of_set (List.mem_finRange v) hv not_unmarked_set
  simp only [unswept, unmarked, List.length_cons] at taken ⊢
  omega

/-- Marks the pending nodes and all that they lead to. A marked node is passed over, so each one is expanded once. -/
def sweep (a : Adjacency n) (marked : Vector Bool n) (pending : List (Fin n)) : Vector Bool n :=
  match pending with
  | [] => marked
  | v :: rest =>
    if h : marked.get v = true then sweep a marked rest
    else sweep a (marked.set v true) (a.successors.get v ++ rest)
termination_by (a.unswept marked).length + pending.length
decreasing_by
  · simp
  · have := a.length_unswept_set_lt (by simpa using h)
    simp only [List.length_append, List.length_cons]
    omega

/-- Marks the nodes that a node leads to by at least one link. -/
def reachSet (a : Adjacency n) (v : Fin n) : Vector Bool n :=
  a.sweep (.replicate n false) (a.successors.get v)

end Adjacency

end FlowPlan.Graph
