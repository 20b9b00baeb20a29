import FlowPlan.Proofs.Graph.Edges
import Mathlib.Data.Fintype.EquivFin
import Mathlib.Logic.Relation
import Mathlib.Order.WellFounded

/-!
# Where links lead

`Graph.Leads` says that one link or more lead from a node to another. The breadth-first search over a graph finds exactly that
(`Graph.reaches_iff`), and the sweep marks what the search finds (`Adjacency.reaches_eq_reachSet`), so it can be decided whether a
graph has a loop. In a graph without loops everything comes after the entry (`Graph.Acyclic.entry_leads`).
-/

namespace FlowPlan.Graph

namespace Adjacency

open Relation

variable {n : Nat} (a : Adjacency n)

/-- A link leads from `v` to `w`. -/
def Links (v w : Fin n) : Prop :=
  w ∈ a.successors.get v

/-! ## Helpers: the search -/

section Search

variable {target : Fin n} {marked marked' : Vector Bool n} {queue queue' nodes : List (Fin n)}

/-- What going through nodes does when the target is not among them: they are marked, each one of them that was not waits in the queue,
and nothing else changes. -/
structure Enqueued (target : Fin n) (marked : Vector Bool n) (queue nodes : List (Fin n)) (marked' : Vector Bool n)
    (queue' : List (Fin n)) : Prop where
  met : ∀ x ∈ nodes, x ≠ target ∧ marked'.get x = true
  kept : ∀ x, marked.get x = true → marked'.get x = true
  fresh : ∀ x, marked'.get x = true → marked.get x = true ∨ x ∈ queue'
  waits : ∀ x ∈ queue, x ∈ queue'
  waited : ∀ x ∈ queue', x ∈ queue ∨ x ∈ nodes

/-- If the target is not met, all nodes are marked and each new one waits. -/
theorem enqueued_of_eq_some (h : enqueue target marked queue nodes = some (marked', queue')) :
    Enqueued target marked queue nodes marked' queue' := by
  induction nodes generalizing marked queue with
  | nil =>
    cases h
    exact ⟨nofun, fun _ => id, fun _ => Or.inl, fun _ => id, fun _ => Or.inl⟩
  | cons next rest ih =>
    rw [enqueue] at h
    split at h
    · cases h
    rename_i hother
    split at h
    · rename_i hnext
      have later := ih h
      refine ⟨List.forall_mem_cons.2 ⟨⟨hother, later.kept _ hnext⟩, later.met⟩, later.kept, later.fresh, later.waits, ?_⟩
      exact fun x hx => (later.waited x hx).imp_right (List.mem_cons_of_mem _)
    · have later := ih h
      have hmarked : marked'.get next = true := later.kept _ (by simp)
      refine ⟨List.forall_mem_cons.2 ⟨⟨hother, hmarked⟩, later.met⟩, fun x hx => later.kept x ?_, fun x hx => ?_,
        fun x hx => later.waits x (List.mem_append_left _ hx), fun x hx => ?_⟩
      · rw [get_set, hx, ite_self]
      · rcases later.fresh x hx with hx | hx
        · rw [get_set] at hx
          split at hx
          · rename_i he
            exact Or.inr (he ▸ later.waits next (List.mem_append_right _ (List.mem_singleton_self next)))
          · exact Or.inl hx
        · exact Or.inr hx
      · rcases later.waited x hx with hx | hx
        · rcases List.mem_append.1 hx with hx | hx
          · exact Or.inl hx
          · exact Or.inr (List.mem_singleton.1 hx ▸ List.mem_cons_self ..)
        · exact Or.inr (List.mem_cons_of_mem _ hx)

/-- The search ends early only at the target. -/
theorem mem_of_enqueue_eq_none (h : enqueue target marked queue nodes = none) : target ∈ nodes := by
  induction nodes generalizing marked queue with
  | nil => cases h
  | cons next rest ih =>
    rw [enqueue] at h
    split at h
    · rename_i he
      exact he ▸ List.mem_cons_self ..
    · split at h
      · exact List.mem_cons_of_mem _ (ih h)
      · exact List.mem_cons_of_mem _ (ih h)

/-- The search finds only what comes after a node in the queue. -/
theorem search_sound (h : a.search target marked queue = true) : ∃ v ∈ queue, TransGen a.Links v target := by
  induction marked, queue using search.induct a target with
  | case1 marked =>
    rw [search] at h
    cases h
  | case2 marked current rest hfound =>
    exact ⟨current, List.mem_cons_self .., .single (mem_of_enqueue_eq_none hfound)⟩
  | case3 marked current rest marked' queue' hnext ih =>
    rw [search] at h
    split at h <;> rename_i he <;> rw [hnext] at he
    · cases he
    cases he
    obtain ⟨v, hv, hleads⟩ := ih h
    rcases (enqueued_of_eq_some hnext).waited v hv with hv | hv
    · exact ⟨v, List.mem_cons_of_mem _ hv, hleads⟩
    · exact ⟨current, List.mem_cons_self .., .head hv hleads⟩

/-- When the search has come to an end, it has come to all that marked nodes lead to. What it keeps on the way: a marked node waits in the
queue, or what it links to is marked and not the target. -/
theorem search_complete (h : a.search target marked queue = false)
    (hmarked : ∀ v, marked.get v = true → v ∈ queue ∨ ∀ w, a.Links v w → w ≠ target ∧ marked.get w = true) {v : Fin n}
    (hv : marked.get v = true) : ¬ TransGen a.Links v target := by
  induction marked, queue using search.induct a target with
  | case1 marked =>
    have closed : ∀ w, TransGen a.Links v w → w ≠ target ∧ marked.get w = true := by
      intro w hw
      induction hw with
      | single hl => exact (hmarked v hv).resolve_left (List.not_mem_nil) _ hl
      | tail _ hl ih => exact (hmarked _ ih.2).resolve_left (List.not_mem_nil) _ hl
    exact fun hl => (closed target hl).1 rfl
  | case2 marked current rest hfound =>
    rw [search] at h
    split at h <;> rename_i he <;> rw [hfound] at he
    · cases h
    · cases he
  | case3 marked current rest marked' queue' hnext ih =>
    rw [search] at h
    split at h <;> rename_i he <;> rw [hnext] at he
    · cases he
    cases he
    have hqueued := enqueued_of_eq_some hnext
    refine ih h (fun x hx => ?_) (hqueued.kept v hv)
    rcases hqueued.fresh x hx with hx | hx
    · rcases hmarked x hx with hx | hx
      · rcases List.mem_cons.1 hx with rfl | hx
        · exact Or.inr fun w hw => hqueued.met w hw
        · exact Or.inl (hqueued.waits x hx)
      · exact Or.inr fun w hw => ⟨(hx w hw).1, hqueued.kept w (hx w hw).2⟩
    · exact Or.inl hx

end Search

theorem get_replicate_false (v : Fin n) : (Vector.replicate n false).get v = false :=
  Vector.getElem_replicate v.isLt

/-- The search finds what one link or more lead to. -/
theorem reaches_iff {v w : Fin n} : a.reaches v w = true ↔ TransGen a.Links v w := by
  constructor
  · intro h
    obtain ⟨x, hx, hleads⟩ := a.search_sound h
    exact List.mem_singleton.1 hx ▸ hleads
  · intro hleads
    by_contra h
    refine a.search_complete (Bool.eq_false_iff.2 h) (fun x hx => ?_) (v := v) (by simp) hleads
    rw [get_set, get_replicate_false] at hx
    split at hx
    · rename_i he
      exact Or.inl (List.mem_singleton.2 he.symm)
    · cases hx

/-! ## Helpers: the sweep -/

/-- What is marked stays marked, and what is pending gets marked. -/
theorem get_sweep_of_mem (marked : Vector Bool n) (pending : List (Fin n)) {w : Fin n}
    (h : marked.get w = true ∨ w ∈ pending) : (a.sweep marked pending).get w = true := by
  induction marked, pending using sweep.induct a with
  | case1 marked =>
    rw [sweep]
    exact h.resolve_right (by simp)
  | case2 marked v rest hv ih =>
    rw [sweep, dif_pos hv]
    refine ih ?_
    rcases h with h | h
    · exact Or.inl h
    · rcases List.mem_cons.1 h with rfl | h
      · exact Or.inl hv
      · exact Or.inr h
  | case3 marked v rest hv ih =>
    rw [sweep, dif_neg hv]
    refine ih ?_
    rw [get_set, List.mem_append]
    rcases h with h | h
    · exact Or.inl (by simp [h])
    · rcases List.mem_cons.1 h with rfl | h
      · exact Or.inl (by simp)
      · exact Or.inr (Or.inr h)

/-- When marked nodes lead to marked and pending ones only, the swept nodes lead to swept ones only. -/
theorem sweep_closed (marked : Vector Bool n) (pending : List (Fin n))
    (h : ∀ v w, marked.get v = true → a.Links v w → marked.get w = true ∨ w ∈ pending) {v w : Fin n}
    (hv : (a.sweep marked pending).get v = true) (hw : a.Links v w) : (a.sweep marked pending).get w = true := by
  induction marked, pending using sweep.induct a with
  | case1 marked =>
    rw [sweep] at hv ⊢
    exact (h v w hv hw).resolve_right (by simp)
  | case2 marked x rest hx ih =>
    rw [sweep, dif_pos hx] at hv ⊢
    refine ih ?_ hv
    intro y z hy hz
    rcases h y z hy hz with hz | hz
    · exact Or.inl hz
    · rcases List.mem_cons.1 hz with rfl | hz
      · exact Or.inl hx
      · exact Or.inr hz
  | case3 marked x rest hx ih =>
    rw [sweep, dif_neg hx] at hv ⊢
    refine ih ?_ hv
    intro y z hy hz
    rw [get_set] at hy ⊢
    rw [List.mem_append]
    by_cases hxz : x = z
    · exact Or.inl (by rw [if_pos hxz])
    rw [if_neg hxz]
    by_cases hxy : x = y
    · exact Or.inr (Or.inl (hxy ▸ hz))
    rw [if_neg hxy] at hy
    rcases h y z hy hz with hz | hz
    · exact Or.inl hz
    · rcases List.mem_cons.1 hz with rfl | hz
      · exact absurd rfl hxz
      · exact Or.inr (Or.inr hz)

/-- A swept node was marked before or comes after a pending one. -/
theorem sweep_sound (marked : Vector Bool n) (pending : List (Fin n)) {w : Fin n}
    (h : (a.sweep marked pending).get w = true) : marked.get w = true ∨ ∃ v ∈ pending, ReflTransGen a.Links v w := by
  induction marked, pending using sweep.induct a with
  | case1 marked =>
    rw [sweep] at h
    exact Or.inl h
  | case2 marked x rest hx ih =>
    rw [sweep, dif_pos hx] at h
    rcases ih h with h | ⟨v, hv, h⟩
    · exact Or.inl h
    · exact Or.inr ⟨v, List.mem_cons_of_mem _ hv, h⟩
  | case3 marked x rest hx ih =>
    rw [sweep, dif_neg hx] at h
    rcases ih h with h | ⟨v, hv, h⟩
    · rw [get_set] at h
      split at h
      · rename_i hxw
        exact Or.inr ⟨x, List.mem_cons_self .., hxw ▸ ReflTransGen.refl⟩
      · exact Or.inl h
    · rcases List.mem_append.1 hv with hv | hv
      · exact Or.inr ⟨x, List.mem_cons_self .., ReflTransGen.head hv h⟩
      · exact Or.inr ⟨v, List.mem_cons_of_mem _ hv, h⟩

/-- The sweep from a node marks what one link or more lead to. -/
theorem reachSet_iff {v w : Fin n} : (a.reachSet v).get w = true ↔ TransGen a.Links v w := by
  unfold reachSet
  constructor
  · intro h
    rcases a.sweep_sound _ _ h with h | ⟨x, hx, h⟩
    · rw [get_replicate_false] at h
      cases h
    · exact TransGen.head' hx h
  · intro h
    have closed : ∀ x y, (a.sweep (.replicate n false) (a.successors.get v)).get x = true → a.Links x y →
        (a.sweep (.replicate n false) (a.successors.get v)).get y = true := by
      intro x y
      refine a.sweep_closed _ _ ?_
      intro y z hy
      rw [get_replicate_false] at hy
      cases hy
    induction h with
    | single h => exact a.get_sweep_of_mem _ _ (Or.inr h)
    | tail _ h ih => exact closed _ _ ih h

/-- The search for a node gives the mark that the sweep gives it. -/
theorem reaches_eq_reachSet (v w : Fin n) : a.reaches v w = (a.reachSet v).get w := by
  rw [Bool.eq_iff_iff, reaches_iff, reachSet_iff]

end Adjacency

variable (g : Graph)

/-- One link or more lead from `v` to `w`. -/
def Leads : Fin g.size → Fin g.size → Prop :=
  Relation.TransGen g.adjacency.Links

/-- No node leads to itself. -/
def Acyclic : Prop :=
  ∀ v, ¬ g.Leads v v

variable {g}

theorem Leads.of_mem {v w : Fin g.size} (h : w ∈ g.successorsAt v) : g.Leads v w :=
  .single h

theorem Leads.trans {u v w : Fin g.size} (h : g.Leads u v) (h' : g.Leads v w) : g.Leads u w :=
  Relation.TransGen.trans h h'

/-- The search finds a target exactly if links lead to it. -/
theorem reaches_iff {v w : Fin g.size} : g.adjacency.reaches v w = true ↔ g.Leads v w :=
  g.adjacency.reaches_iff

/-- Whether a graph has loops can be decided by a sweep from each node. -/
instance : Decidable g.Acyclic :=
  decidable_of_iff (∀ v, ¬ g.adjacency.reaches v v = true) (forall_congr' fun _ => not_congr reaches_iff)

/-- Without loops no node leads to itself. -/
theorem Acyclic.ne (h : g.Acyclic) {v w : Fin g.size} (hl : g.Leads v w) : v ≠ w := by
  rintro rfl
  exact h v hl

/-- In a graph without loops there is a first node with a property, in the sense of the links. -/
theorem Acyclic.wellFounded (h : g.Acyclic) : WellFounded g.Leads :=
  haveI : IsTrans (Fin g.size) g.Leads := ⟨fun _ _ _ => Leads.trans⟩
  haveI : Std.Irrefl g.Leads := ⟨h⟩
  Finite.wellFounded_of_trans_of_irrefl g.Leads

/-- The entry is the one node that nothing leads to. -/
theorem entry_ok {entry : Fin g.size} (h : g.entry = .ok entry) (v : Fin g.size) : g.predecessorsAt v = [] ↔ v = entry := by
  have only : g.entryCandidates = [entry] := by
    unfold Graph.entry at h
    split at h
    · rename_i v hv
      cases h
      exact hv
    · cases h
  have candidate : v ∈ g.entryCandidates ↔ g.predecessorsAt v = [] := by
    simp [entryCandidates, vertices]
  rw [← candidate, only, List.mem_singleton]

/-- In a graph without loops the entry leads to everything else. -/
theorem Acyclic.entry_leads {catalog : NodeCatalog} {nodes : List Flow.Node} {edges : List Flow.Edge}
    (hg : Indexes catalog nodes edges g) (h : g.Acyclic) {entry : Fin g.size} (he : g.entry = .ok entry) (v : Fin g.size) :
    v = entry ∨ g.Leads entry v := by
  induction v using h.wellFounded.induction with
  | _ v ih =>
    by_cases hv : g.predecessorsAt v = []
    · exact Or.inl ((entry_ok he v).1 hv)
    · obtain ⟨u, hu⟩ := List.exists_mem_of_ne_nil _ hv
      have huv : g.Leads u v := .of_mem (hg.mem_predecessorsAt_iff.1 hu)
      rcases ih u huv with rfl | hu
      · exact Or.inr huv
      · exact Or.inr (hu.trans huv)

end FlowPlan.Graph
