import FlowPlan.Graph.Basic
import Mathlib.Data.List.Induction
import Mathlib.Data.List.Nodup
import Mathlib.Order.Fin.Basic

/-!
# What links leave in an adjacency

Statements about `Adjacency.ofLinks`: the successors of a node are the targets of the links that leave it and its predecessors
the sources of those that enter it, in the order of the links, each once. So successors and predecessors are converse to each
other.
-/

namespace FlowPlan.Graph

/-! ## Helpers: lists without repetition -/

namespace LinksAux

variable {α : Type} [DecidableEq α]

/-- One more element stays when it is new. -/
theorem eraseDups_concat (l : List α) (a : α) :
    (l ++ [a]).eraseDups = if a ∈ l then l.eraseDups else l.eraseDups ++ [a] := by
  rw [List.eraseDups_append]
  by_cases h : a ∈ l <;> simp [List.removeAll, List.eraseDups_cons, h]

/-- What is left once repetitions are erased has none. -/
theorem nodup_eraseDups (l : List α) : l.eraseDups.Nodup := by
  induction l using List.reverseRecOn with
  | nil => simp
  | append_singleton rest a ih =>
    rw [eraseDups_concat]
    split
    · exact ih
    · rename_i h
      rw [← List.concat_eq_append]
      exact ih.concat fun ha => h (List.mem_eraseDups.1 ha)

/-- A list without repetitions loses nothing. -/
theorem eraseDups_of_nodup {l : List α} (h : l.Nodup) : l.eraseDups = l := by
  induction l using List.reverseRecOn with
  | nil => simp
  | append_singleton rest a ih =>
    have hr : rest.Nodup := h.sublist (List.sublist_append_left rest [a])
    have ha : a ∉ rest := fun hm => (List.nodup_append.1 h).2.2 a hm a (List.mem_singleton_self a) rfl
    rw [eraseDups_concat, if_neg ha, ih hr]

/-- Repetitions may be erased before or after an injective function is applied. -/
theorem eraseDups_map {β : Type} [DecidableEq β] {f : α → β} (hf : Function.Injective f) (l : List α) :
    (l.map f).eraseDups = l.eraseDups.map f := by
  induction l using List.reverseRecOn with
  | nil => rfl
  | append_singleton rest a ih =>
    rw [List.map_append, List.map_singleton, eraseDups_concat, eraseDups_concat, ih]
    by_cases ha : a ∈ rest
    · rw [if_pos ha, if_pos (List.mem_map_of_mem ha)]
    · rw [if_neg ha, if_neg (mt (List.mem_map_of_injective hf).1 ha), List.map_append, List.map_singleton]

end LinksAux

namespace Adjacency

open LinksAux

variable {n : Nat}

/-- Where the links that leave a node go, in order and each once. -/
def targets (links : List (Fin n × Fin n)) (v : Fin n) : List (Fin n) :=
  ((links.filter fun l => l.1 == v).map (·.2)).eraseDups

/-- Where the links that enter a node come from, in order and each once. -/
def sources (links : List (Fin n × Fin n)) (w : Fin n) : List (Fin n) :=
  targets (links.map Prod.swap) w

theorem nodup_targets (links : List (Fin n × Fin n)) (v : Fin n) : (targets links v).Nodup :=
  nodup_eraseDups _

@[simp] theorem mem_targets {links : List (Fin n × Fin n)} {v w : Fin n} : w ∈ targets links v ↔ (v, w) ∈ links := by
  simp only [targets, List.mem_eraseDups, List.mem_map, List.mem_filter, beq_iff_eq]
  constructor
  · rintro ⟨⟨a, b⟩, ⟨hl, rfl⟩, rfl⟩
    exact hl
  · intro hl
    exact ⟨(v, w), ⟨hl, rfl⟩, rfl⟩

@[simp] theorem mem_sources {links : List (Fin n × Fin n)} {v w : Fin n} : v ∈ sources links w ↔ (v, w) ∈ links := by
  rw [sources, mem_targets, List.mem_map]
  constructor
  · rintro ⟨⟨a, b⟩, hl, he⟩
    cases he
    exact hl
  · intro hl
    exact ⟨(v, w), hl, rfl⟩

/-- One more link adds a target at the end, unless it is there already. -/
theorem targets_concat (links : List (Fin n × Fin n)) (s t v : Fin n) :
    targets (links ++ [(s, t)]) v = if s = v ∧ (s, t) ∉ links then targets links v ++ [t] else targets links v := by
  by_cases hs : s = v
  · subst hs
    have hm : t ∈ (links.filter fun l => l.1 == s).map (·.2) ↔ (s, t) ∈ links := by
      rw [← List.mem_eraseDups]
      exact mem_targets
    simp only [targets, List.filter_append, List.filter_cons, beq_self_eq_true, if_true, List.filter_nil,
      List.map_append, List.map_cons, List.map_nil, eraseDups_concat, hm, true_and]
    split <;> simp [*]
  · simp [targets, List.filter_append, hs]

/-- One more link adds a source at the end, unless it is there already. -/
theorem sources_concat (links : List (Fin n × Fin n)) (s t w : Fin n) :
    sources (links ++ [(s, t)]) w = if t = w ∧ (s, t) ∉ links then sources links w ++ [s] else sources links w := by
  have hm : (t, s) ∈ links.map Prod.swap ↔ (s, t) ∈ links := by
    rw [← mem_targets]
    exact mem_sources
  simp only [sources, List.map_append, List.map_singleton, Prod.swap_prod_mk, targets_concat, hm]

/-- The successors and predecessors that links leave. -/
theorem get_ofLinks (links : List (Fin n × Fin n)) :
    (∀ v, (ofLinks links).successors.get v = targets links v) ∧
      ∀ w, (ofLinks links).predecessors.get w = sources links w := by
  induction links using List.reverseRecOn with
  | nil =>
    have hr : ∀ v : Fin n, (Vector.replicate n ([] : List (Fin n))).get v = [] := by
      intro v
      exact Vector.getElem_replicate v.isLt
    exact ⟨hr, hr⟩
  | append_singleton links l ih =>
    obtain ⟨s, t⟩ := l
    obtain ⟨hsucc, hpred⟩ := ih
    have step : ofLinks (links ++ [(s, t)]) = (ofLinks links).link s t := by
      simp only [ofLinks, List.foldl_append, List.foldl_cons, List.foldl_nil]
    have known : ((ofLinks links).successors.get s).contains t = true ↔ (s, t) ∈ links := by
      rw [List.contains_iff_mem, hsucc, mem_targets]
    rw [step, link]
    by_cases hl : (s, t) ∈ links
    · rw [if_pos (known.2 hl)]
      simp only [hsucc, hpred, targets_concat, sources_concat, hl, not_true_eq_false, and_false, if_false, implies_true,
        and_self]
    · rw [if_neg (mt known.1 hl)]
      simp only [get_set, hsucc, hpred, targets_concat, sources_concat, hl, not_false_eq_true, and_true]
      constructor <;> intro v <;> split <;> simp [*]

/-- The successors of a node are the targets of its links, in the order of the first ones. -/
@[simp] theorem successors_ofLinks (links : List (Fin n × Fin n)) (v : Fin n) :
    (ofLinks links).successors.get v = targets links v :=
  (get_ofLinks links).1 v

/-- The predecessors of a node are the sources of its links, in the order of the first ones. -/
@[simp] theorem predecessors_ofLinks (links : List (Fin n × Fin n)) (w : Fin n) :
    (ofLinks links).predecessors.get w = sources links w :=
  (get_ofLinks links).2 w

/-- A link that was made before changes nothing. -/
theorem ofLinks_append_cons {links others : List (Fin n × Fin n)} {l : Fin n × Fin n} (h : l ∈ links) :
    ofLinks (links ++ l :: others) = ofLinks (links ++ others) := by
  have known : (ofLinks links).link l.1 l.2 = ofLinks links := by
    rw [link, if_pos]
    rw [List.contains_iff_mem, successors_ofLinks, mem_targets]
    exact h
  unfold ofLinks at known ⊢
  rw [List.foldl_append, List.foldl_append, List.foldl_cons, known]

end Adjacency

end FlowPlan.Graph
