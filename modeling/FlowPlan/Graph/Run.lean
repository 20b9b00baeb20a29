import FlowPlan.Graph.Basic

/-!
# Straight runs

From a node on, a sequence of a plan follows single successors from one plain node to the next. `Graph.run` gives the plain
nodes that are met and what ends the run: the end of the flow or the node to stop before, a fan-out, a conditional node, a node
that is already on the path, or a node that cannot stand in a plan.
-/

namespace FlowPlan.Graph

/-- What ends a straight run. -/
inductive RunEnd (n : Nat)
  /-- nothing follows, or the next node is the one to stop before -/
  | done
  /-- several nodes follow -/
  | fork (start : Fin n)
  /-- the next node is on the path already -/
  | loop (source target : Fin n)
  /-- the next node is conditional -/
  | conditional (next : Fin n)
  /-- the next node is a branch of a conditional node -/
  | stray (next : Fin n) (parent : String)
  /-- the next node has an unknown component -/
  | unrecognized (next : Fin n)
  deriving DecidableEq, Repr

/-- The positions that are not on a path. -/
def offPath {n : Nat} (path : List (Fin n)) : List (Fin n) :=
  (List.finRange n).filter fun v => !path.contains v

/-- A step to a node that is not on the path leaves fewer nodes off it. -/
theorem length_offPath_cons {n : Nat} {path : List (Fin n)} {v : Fin n} (h : ¬ path.contains v) :
    (offPath (v :: path)).length < (offPath path).length := by
  refine Adjacency.length_filter_lt ?_ (List.mem_finRange v) ?_ ?_
  · intro x hx
    simp at hx ⊢
    exact hx.2
  · simpa using h
  · simp

variable (g : Graph)

/-- The plain nodes that follow `v` one by one, none of which is on the path, and what ends them. -/
def run (stop : Option (Fin g.size)) (path : List (Fin g.size)) (v : Fin g.size) :
    List (Fin g.size) × RunEnd g.size :=
  match g.successorsAt v with
  | [] => ([], .done)
  | [w] =>
    if stop = some w then ([], .done)
    else if path.contains w then ([], .loop v w)
    else
      match (g.node w).kind with
      | .plain =>
        let (rest, ending) := run stop (w :: path) w
        (w :: rest, ending)
      | .conditional _ => ([], .conditional w)
      | .branch parent _ => ([], .stray w parent)
      | .unrecognized => ([], .unrecognized w)
  | _ => ([], .fork v)
termination_by (offPath path).length
decreasing_by exact length_offPath_cons (by assumption)

variable {g}

/-- A list that is neither empty nor a single item has two at least. -/
theorem one_lt_length_of_ne {α : Type} {l : List α} (hnil : l ≠ []) (hone : ∀ a, l ≠ [a]) : 1 < l.length := by
  rcases l with _ | ⟨a, _ | ⟨b, rest⟩⟩
  · exact absurd rfl hnil
  · exact absurd rfl (hone a)
  · simp

/-- A fan-out ends a run at once. -/
theorem run_of_fork {stop : Option (Fin g.size)} {path : List (Fin g.size)} {v : Fin g.size}
    (h : 1 < (g.successorsAt v).length) : g.run stop path v = ([], .fork v) := by
  rcases hs : g.successorsAt v with _ | ⟨w, _ | ⟨x, rest⟩⟩
  · rw [hs] at h
    cases h
  · rw [hs] at h
    exact absurd h (Nat.lt_irrefl 1)
  · rw [run, hs]

end FlowPlan.Graph
