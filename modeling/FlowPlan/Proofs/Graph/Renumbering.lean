import FlowPlan.Graph.Run
import FlowPlan.Proofs.Graph.Merging
import Mathlib.Logic.Equiv.Basic

/-!
# Renumbered graphs

The positions of a graph follow the order in which its nodes are registered. `Graph.Renumbers` says that two graphs differ in
nothing that a plan depends on but the numbers: nodes, successors in order, merge nodes, and how many branch starts share one.
Merge nodes need no look of their own when the branch ends stand in the same order (`Graph.renumbers_of_successors`).

For the shape of a plan less is enough: parameters and the texts of conditions may differ too (`Graph.SameShape`). A straight run is
the same along both graphs even so (`Graph.SameShape.run`).
-/

namespace FlowPlan.Graph

/-- One graph is another one with other numbers. -/
structure Renumbers (g g' : Graph) (r : Fin g.size ≃ Fin g'.size) : Prop where
  node : ∀ v, g'.node (r v) = g.node v
  successors : ∀ v, g'.successorsAt (r v) = (g.successorsAt v).map r
  merge : ∀ v, g'.pairing.mergeOf.get (r v) = (g.pairing.mergeOf.get v).map r
  sharers : ∀ e, (g'.pairing.startsOf.get (r e)).length = (g.pairing.startsOf.get e).length

/-! ## Graphs of one shape -/

/-- Kinds that differ in the text of a condition at most. -/
inductive Kind.Resembles : Kind → Kind → Prop
  | plain : Resembles .plain .plain
  | conditional {branches} : Resembles (.conditional branches) (.conditional branches)
  | branch {parent condition' condition} : condition'.isNone = condition.isNone →
      Resembles (.branch parent condition') (.branch parent condition)
  | unrecognized : Resembles .unrecognized .unrecognized

theorem Kind.Resembles.refl (kind : Kind) : kind.Resembles kind := by
  cases kind with
  | plain => exact .plain
  | conditional branches => exact .conditional
  | branch parent condition => exact .branch rfl
  | unrecognized => exact .unrecognized

/-- Nodes that differ in their parameters and in the text of a condition at most. -/
structure Node.Resembles (n' n : Node) : Prop where
  id : n'.id = n.id
  component : n'.component = n.component
  kind : n'.kind.Resembles n.kind

/-- One graph has the shape of another one, with other numbers. -/
structure SameShape (g g' : Graph) (r : Fin g.size ≃ Fin g'.size) : Prop where
  node : ∀ v, (g'.node (r v)).Resembles (g.node v)
  successors : ∀ v, g'.successorsAt (r v) = (g.successorsAt v).map r
  merge : ∀ v, g'.pairing.mergeOf.get (r v) = (g.pairing.mergeOf.get v).map r
  sharers : ∀ e, (g'.pairing.startsOf.get (r e)).length = (g.pairing.startsOf.get e).length

/-- A graph under other numbers has the same shape. -/
theorem Renumbers.sameShape {g g' : Graph} {r : Fin g.size ≃ Fin g'.size} (h : Renumbers g g' r) : SameShape g g' r := by
  refine ⟨fun v => ?_, h.successors, h.merge, h.sharers⟩
  rw [h.node]
  exact ⟨rfl, rfl, .refl _⟩

/-- The end of a run under other numbers. -/
def RunEnd.map {n m : Nat} (r : Fin n → Fin m) : RunEnd n → RunEnd m
  | .done => .done
  | .fork start => .fork (r start)
  | .loop source target => .loop (r source) (r target)
  | .conditional next => .conditional (r next)
  | .stray next parent => .stray (r next) parent
  | .unrecognized next => .unrecognized (r next)

/-! ## Helpers: other numbers -/

namespace RenumberingAux

variable {n m : Nat} (r : Fin n ≃ Fin m)

theorem map_eq_some_iff {o : Option (Fin n)} {w : Fin n} : o.map r = some (r w) ↔ o = some w :=
  (Option.map_injective r.injective).eq_iff (b := some w)

/-- A path contains a node under either numbers. -/
theorem contains_map (path : List (Fin n)) (w : Fin n) : (path.map r).contains (r w) = path.contains w := by
  rw [Bool.eq_iff_iff, List.contains_iff_mem, List.contains_iff_mem, List.mem_map_of_injective r.injective]

theorem head?_map_bne (opened : List (Fin n)) (w : Fin n) : ((opened.map r).head? != some (r w)) = (opened.head? != some w) := by
  rw [Bool.eq_iff_iff, bne_iff_ne, bne_iff_ne, List.head?_map, ne_eq, map_eq_some_iff]

end RenumberingAux

/-- No branch start is listed twice for a merge node. -/
theorem nodup_startsOf (g : Graph) (e : Fin g.size) : (g.pairing.startsOf.get e).Nodup := by
  rw [startsOf_get]
  exact (List.nodup_finRange g.size).filter _

variable {g g' : Graph} {r : Fin g.size ≃ Fin g'.size}

section Links

variable (hsuccessors : ∀ v, g'.successorsAt (r v) = (g.successorsAt v).map r)

include hsuccessors

/-- Links lead to the same nodes. -/
theorem leads_renumbered {v w : Fin g.size} : g'.Leads (r v) (r w) ↔ g.Leads v w := by
  constructor
  · intro h
    have onward : ∀ x, g'.Leads (r v) x → ∃ u, r u = x ∧ g.Leads v u := by
      intro x hx
      have link : ∀ u y, g'.adjacency.Links (r u) y → ∃ z, r z = y ∧ z ∈ g.successorsAt u := by
        intro u y hy
        have hmem : y ∈ g'.successorsAt (r u) := hy
        rw [hsuccessors] at hmem
        obtain ⟨z, hz, rfl⟩ := List.mem_map.1 hmem
        exact ⟨z, rfl, hz⟩
      induction hx with
      | single hl =>
        obtain ⟨z, rfl, hz⟩ := link v _ hl
        exact ⟨z, rfl, .of_mem hz⟩
      | tail _ hl ih =>
        obtain ⟨u, rfl, hu⟩ := ih
        obtain ⟨z, rfl, hz⟩ := link u _ hl
        exact ⟨z, rfl, hu.trans (.of_mem hz)⟩
    obtain ⟨u, hu, hl⟩ := onward (r w) h
    exact r.injective hu ▸ hl
  · intro h
    refine Relation.TransGen.lift r (fun u x hl => ?_) v w h
    change r x ∈ g'.successorsAt (r u)
    rw [hsuccessors]
    exact List.mem_map_of_mem hl

/-- Graphs with the same nodes, the same successors in order and the same branch ends in order have the same merge nodes. -/
theorem renumbers_of_successors (hnode : ∀ v, g'.node (r v) = g.node v)
    (hends : g'.vertices.filter g'.adjacency.isBranchEnd = (g.vertices.filter g.adjacency.isBranchEnd).map r) :
    Renumbers g g' r := by
  have hmerge : ∀ v, g'.pairing.mergeOf.get (r v) = (g.pairing.mergeOf.get v).map r := by
    intro v
    have hstart : g'.adjacency.isBranchStart (r v) = g.adjacency.isBranchStart v := by
      change decide (1 < (g'.successorsAt (r v)).length) = decide (1 < (g.successorsAt v).length)
      rw [hsuccessors, List.length_map]
    rw [mergeOf_get, mergeOf_get, Pairing.mergeFor, Pairing.mergeFor, hstart]
    split
    · change (g'.vertices.filter g'.adjacency.isBranchEnd).find? _ = ((g.vertices.filter g.adjacency.isBranchEnd).find? _).map r
      rw [hends, List.find?_map]
      refine congrArg _ (congrArg (List.find? · _) (funext fun e => ?_))
      have hreach : g'.adjacency.reaches (r v) (r e) = g.adjacency.reaches v e := by
        rw [Bool.eq_iff_iff, reaches_iff, reaches_iff, leads_renumbered hsuccessors]
      change (decide (r e ≠ r v) && g'.adjacency.reaches (r v) (r e)) = (decide (e ≠ v) && g.adjacency.reaches v e)
      rw [hreach]
      simp
    · rfl
  refine ⟨hnode, hsuccessors, hmerge, fun e => ?_⟩
  have hperm : (g'.pairing.startsOf.get (r e)).Perm ((g.pairing.startsOf.get e).map r) := by
    refine (List.perm_ext_iff_of_nodup (nodup_startsOf g' (r e)) ((nodup_startsOf g e).map r.injective)).2 fun x => ?_
    obtain ⟨v, rfl⟩ := r.surjective x
    rw [mem_startsOf, hmerge, List.mem_map_of_injective r.injective, mem_startsOf]
    exact RenumberingAux.map_eq_some_iff r
  rw [hperm.length_eq, List.length_map]

end Links

namespace Renumbers

/-- A graph with its own numbers. -/
theorem refl (g : Graph) : Renumbers g g (Equiv.refl _) := by
  refine ⟨fun _ => rfl, fun _ => ?_, fun _ => ?_, fun _ => rfl⟩
  · exact (List.map_id _).symm
  · exact Option.map_id.symm ▸ rfl

/-- A graph has the entry that it has under its own numbers. -/
theorem entry_refl (g : Graph) : g.entry = g.entry.map (Equiv.refl (Fin g.size)) := by
  cases g.entry <;> rfl

end Renumbers

namespace SameShape

/-- Graphs of one shape are of one size. -/
theorem size_eq (r : Fin g.size ≃ Fin g'.size) : g'.size = g.size :=
  (Fin.equiv_iff_eq.1 ⟨r⟩).symm

variable (h : SameShape g g' r)

include h

/-- Ids stay under other numbers. -/
theorem idAt (v : Fin g.size) : g'.idAt (r v) = g.idAt v :=
  (h.node v).id

variable {v : Fin g.size}

/-- A plain node has a plain image. -/
theorem kind_plain (hv : (g.node v).kind = .plain) : (g'.node (r v)).kind = .plain := by
  have hkind := (h.node v).kind
  rw [hv] at hkind
  generalize (g'.node (r v)).kind = kind' at hkind
  cases hkind
  rfl

/-- A conditional node has a conditional image, with the same branch ids. -/
theorem kind_conditional {ids : List String} (hv : (g.node v).kind = .conditional ids) :
    (g'.node (r v)).kind = .conditional ids := by
  have hkind := (h.node v).kind
  rw [hv] at hkind
  generalize (g'.node (r v)).kind = kind' at hkind
  cases hkind
  rfl

/-- The image of a branch has a condition if the branch does. -/
theorem kind_branch {parent : String} {condition : Option String} (hv : (g.node v).kind = .branch parent condition) :
    ∃ condition', (g'.node (r v)).kind = .branch parent condition' ∧ condition'.isNone = condition.isNone := by
  have hkind := (h.node v).kind
  rw [hv] at hkind
  generalize (g'.node (r v)).kind = kind' at hkind
  cases hkind with
  | branch hc => exact ⟨_, rfl, hc⟩

/-- An unknown component stays unknown. -/
theorem kind_unrecognized (hv : (g.node v).kind = .unrecognized) : (g'.node (r v)).kind = .unrecognized := by
  have hkind := (h.node v).kind
  rw [hv] at hkind
  generalize (g'.node (r v)).kind = kind' at hkind
  cases hkind
  rfl

/-- A straight run goes along the same nodes. -/
theorem run (stop : Option (Fin g.size)) (path : List (Fin g.size)) (v : Fin g.size) :
    g'.run (stop.map r) (path.map r) (r v) = ((g.run stop path v).1.map r, (g.run stop path v).2.map r) := by
  have stopped : ∀ w, stop.map r = some (r w) ↔ stop = some w := fun _ => RenumberingAux.map_eq_some_iff r
  have contains := RenumberingAux.contains_map r
  induction path, v using Graph.run.induct g stop with
  | case1 path v hs =>
    rw [Graph.run, Graph.run, h.successors, hs]
    rfl
  | case2 path v w hs hstop =>
    rw [Graph.run, Graph.run, h.successors, hs]
    simp only [List.map_cons, List.map_nil, stopped, if_pos hstop]
    rfl
  | case3 path v w hs hstop hpath =>
    rw [Graph.run, Graph.run, h.successors, hs]
    simp only [List.map_cons, List.map_nil, stopped, contains, if_neg hstop, if_pos hpath]
    rfl
  | case4 path v w hs hstop hpath hk others ending hrun ih =>
    have hk' := h.kind_plain hk
    rw [Graph.run, Graph.run, h.successors, hs]
    simp only [List.map_cons, List.map_nil, stopped, contains, if_neg hstop, if_neg hpath, hk', hk, hrun]
    rw [List.map_cons] at ih
    rw [ih, hrun]
  | case5 path v w hs hstop hpath branches hk =>
    have hk' := h.kind_conditional hk
    rw [Graph.run, Graph.run, h.successors, hs]
    simp only [List.map_cons, List.map_nil, stopped, contains, if_neg hstop, if_neg hpath, hk', hk]
    rfl
  | case6 path v w hs hstop hpath parent condition hk =>
    obtain ⟨condition', hk', -⟩ := h.kind_branch hk
    rw [Graph.run, Graph.run, h.successors, hs]
    simp only [List.map_cons, List.map_nil, stopped, contains, if_neg hstop, if_neg hpath, hk', hk]
    rfl
  | case7 path v w hs hstop hpath hk =>
    have hk' := h.kind_unrecognized hk
    rw [Graph.run, Graph.run, h.successors, hs]
    simp only [List.map_cons, List.map_nil, stopped, contains, if_neg hstop, if_neg hpath, hk', hk]
    rfl
  | case8 path v hnil hone =>
    have hmany := one_lt_length_of_ne hnil hone
    have hmany' : 1 < (g'.successorsAt (r v)).length := by rwa [h.successors, List.length_map]
    rw [run_of_fork hmany, run_of_fork hmany']
    rfl

end SameShape

end FlowPlan.Graph
