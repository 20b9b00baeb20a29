import FlowPlan.Proofs.Compile.Stages

/-!
# Graphs that lead on

In an upward graph links lead on in the order of registration, every node but the first is entered and every node but the last is
left (`Graph.Upward`). Such a graph has no loops, the first node is its entry, and every node is on a path from there to the last
one. A waist is a node that no link passes over (`Graph.Waist`): all nodes before it lead to it, and it leads to all behind it. So a
graph is in stages when its merge nodes are waists (`Graph.Upward.staged`), and no two branch starts share a merge node when there is
a waist between any two of them (`Graph.Upward.not_shared`).
-/

namespace FlowPlan.Graph

open Relation

/-- Links lead on, and there are ways in and out. -/
structure Upward (g : Graph) : Prop where
  onward : ∀ v w, w ∈ g.successorsAt v → v < w
  entered : ∀ v : Fin g.size, 0 < v.val → g.predecessorsAt v ≠ []
  left : ∀ v : Fin g.size, v.val + 1 < g.size → g.successorsAt v ≠ []

/-- A node that no link passes over. -/
def Waist (g : Graph) (e : Fin g.size) : Prop :=
  ∀ v w, w ∈ g.successorsAt v → v < e → w ≤ e

variable {catalog : NodeCatalog} {nodes : List Flow.Node} {edges : List Flow.Edge} {g : Graph}

/-- A list of two at least without repetitions has two different members. -/
theorem exists_ne_of_nodup {α : Type} {l : List α} (h : l.Nodup) (hl : 1 < l.length) : ∃ a ∈ l, ∃ b ∈ l, a ≠ b := by
  rcases l with _ | ⟨a, _ | ⟨b, rest⟩⟩
  · cases hl
  · simp at hl
  · refine ⟨a, by simp, b, by simp, ?_⟩
    rintro rfl
    simp at h

/-- Two paths make one. -/
theorem Path.trans {u v w : String} {p q : List String} (h : g.Path u v p) (h' : g.Path v w q) :
    ∃ r, g.Path u w r ∧ p ⊆ r ∧ q ⊆ r := by
  induction h' with
  | here => exact ⟨p, h, List.Subset.refl p, by simpa using h.mem_last⟩
  | @step x w q _ hw ih =>
    obtain ⟨r, hr, hp, hq⟩ := ih
    refine ⟨r ++ [w], .step hr hw, List.subset_append_of_subset_left _ hp, ?_⟩
    exact List.append_subset.2 ⟨List.subset_append_of_subset_left _ hq, List.subset_append_right ..⟩

namespace Upward

/-- Nodes that links lead to are later ones. -/
theorem lt_of_leads (h : g.Upward) {v w : Fin g.size} (hl : g.Leads v w) : v < w := by
  induction hl with
  | single hl => exact h.onward _ _ hl
  | tail _ hl ih => exact Fin.lt_trans ih (h.onward _ _ hl)

/-- Links that lead on make no loops. -/
theorem acyclic (h : g.Upward) : g.Acyclic :=
  fun v hv => absurd (h.lt_of_leads hv) (Fin.lt_irrefl v)

/-- What is past a node is not earlier. -/
theorem le_of_past (h : g.Upward) {v w : Fin g.size} (hp : g.Past v w) : v ≤ w :=
  hp.elim (fun heq => heq ▸ Fin.le_refl _) fun hl => Fin.le_of_lt (h.lt_of_leads hl)

/-- All nodes before a waist lead to it. -/
theorem past_waist (h : g.Upward) {e v : Fin g.size} (he : g.Waist e) (hv : v ≤ e) : g.Past v e := by
  induction hn : e.val - v.val using Nat.strongRecOn generalizing v with
  | _ n ih =>
    rcases Fin.lt_or_eq_of_le hv with hlt | rfl
    · obtain ⟨w, hw⟩ := List.exists_mem_of_ne_nil _ (h.left v (by omega))
      have hvw := h.onward v w hw
      have hwe := he v w hw hlt
      exact Or.inr ((Leads.of_mem hw).past (ih _ (by omega) hwe rfl))
    · exact Or.inl rfl

/-- A waist leads to all nodes behind it. -/
theorem waist_past (hg : Indexes catalog nodes edges g) (h : g.Upward) {e v : Fin g.size} (he : g.Waist e) (hv : e ≤ v) :
    g.Past e v := by
  induction hn : v.val using Nat.strongRecOn generalizing v with
  | _ n ih =>
    rcases Fin.lt_or_eq_of_le hv with hlt | rfl
    · obtain ⟨u, hu⟩ := List.exists_mem_of_ne_nil _ (h.entered v (by omega))
      have hlink := hg.mem_predecessorsAt_iff.1 hu
      have huv := h.onward u v hlink
      have heu : e ≤ u := by
        refine Fin.not_lt.1 fun hue => ?_
        exact absurd hlt (Fin.not_lt.2 (he u v hlink hue))
      exact Or.inr ((ih _ (by omega) heu rfl).tail (.of_mem hlink))
    · exact Or.inl rfl

/-! ## First and last -/

/-- No link passes over the first node. -/
theorem waist_first {first : Fin g.size} (hfirst : first.val = 0) : g.Waist first :=
  fun v _ _ hv => absurd hv (by omega)

/-- No link passes over the last node. -/
theorem waist_last {last : Fin g.size} (hlast : last.val + 1 = g.size) : g.Waist last :=
  fun _ w _ _ => by omega

/-- The first node is the entry. -/
theorem entry_first (hg : Indexes catalog nodes edges g) (h : g.Upward) {first : Fin g.size} (hfirst : first.val = 0) :
    g.entry = .ok first := by
  have hmem : ∀ v, v ∈ g.entryCandidates ↔ v ∈ [first] := by
    intro v
    have hcandidate : v ∈ g.entryCandidates ↔ g.predecessorsAt v = [] := by simp [entryCandidates, vertices]
    rw [hcandidate, List.mem_singleton]
    constructor
    · intro hv
      refine Fin.ext (hfirst ▸ Nat.eq_zero_of_not_pos fun hpos => h.entered v hpos hv)
    · rintro rfl
      refine List.eq_nil_iff_forall_not_mem.2 fun u hu => ?_
      have huv := h.onward u v (hg.mem_predecessorsAt_iff.1 hu)
      omega
  have hnodup : g.entryCandidates.Nodup := (List.nodup_finRange g.size).filter _
  have honly : g.entryCandidates = [first] :=
    List.perm_singleton.1 ((List.perm_ext_iff_of_nodup hnodup (List.nodup_singleton _)).2 hmem)
  rw [Graph.entry, honly]

/-- The last node is the only one that nothing follows. -/
theorem successorsAt_eq_nil_iff (h : g.Upward) {last v : Fin g.size} (hlast : last.val + 1 = g.size) :
    g.successorsAt v = [] ↔ v = last := by
  constructor
  · intro hv
    refine Fin.ext ?_
    have hnot := mt (h.left v) (not_not.2 hv)
    omega
  · rintro rfl
    refine List.eq_nil_iff_forall_not_mem.2 fun w hw => ?_
    have hvw := h.onward v w hw
    omega

/-- Every node is on a path from the first to the last one. -/
theorem exists_path_through (hg : Indexes catalog nodes edges g) (h : g.Upward) {first last : Fin g.size}
    (hfirst : first.val = 0) (hlast : last.val + 1 = g.size) (v : Fin g.size) :
    ∃ p, g.Path (g.idAt first) (g.idAt last) p ∧ g.idAt v ∈ p := by
  obtain ⟨p, hp⟩ := hg.exists_path (h.waist_past hg (waist_first hfirst) (show first ≤ v by omega))
  obtain ⟨q, hq⟩ := hg.exists_path (h.past_waist (waist_last hlast) (show v ≤ last by omega))
  obtain ⟨r, hr, hsub, -⟩ := hp.trans hq
  exact ⟨r, hr, hsub hp.mem_last⟩

/-! ## Merge nodes that are waists -/

/-- When the merge nodes are waists, the graph is in stages. -/
theorem staged (hg : Indexes catalog nodes edges g) (h : g.Upward)
    (hwaists : ∀ e, 1 < (g.predecessorsAt e).length → g.Waist e) : g.Staged where
  entered := by
    intro e he v w hw hew
    by_cases hv : v < e
    · exact Or.inl (Fin.le_antisymm (hwaists e he v w hw hv) (h.le_of_past hew))
    · exact Or.inr (h.waist_past hg (hwaists e he) (Fin.not_lt.1 hv))
  ordered := fun e m he _ hle => h.waist_past hg (hwaists e he) hle

/-- The branches of a start that lies before a waist meet at the waist or before it. -/
theorem merges_le (hg : Indexes catalog nodes edges g) (h : g.Upward) {v e x : Fin g.size} (hv : g.Merges v e) (hx : g.Waist x)
    (hvx : v < x) : e ≤ x := by
  obtain ⟨w, hw, w', hw', hne⟩ := exists_ne_of_nodup (hg.nodup_successorsAt v) hv.start
  have hpast : ∀ u ∈ g.successorsAt v, g.Past u x := fun u hu => h.past_waist hx (hx v u hu hvx)
  obtain ⟨m, hm, hvm, hmx⟩ := hg.exists_meeting h.acyclic hw hw' hne (hpast w hw) (hpast w' hw')
  exact Fin.le_trans (hv.first m hm (Fin.ne_of_gt (h.lt_of_leads hvm)) hvm) (h.le_of_past hmx)

/-- When there is a waist between any two branch starts, no two of them share a merge node. -/
theorem not_shared (hg : Indexes catalog nodes edges g) (h : g.Upward)
    (hbetween : ∀ u v, 1 < (g.successorsAt u).length → 1 < (g.successorsAt v).length → u < v → ∃ x, g.Waist x ∧ u < x ∧ x ≤ v)
    (e : Fin g.size) : ¬ g.Shared e := by
  have apart : ∀ u v, u < v → g.Merges u e → ¬ g.Merges v e := by
    intro u v huv hu hv
    obtain ⟨x, hx, hux, hxv⟩ := hbetween u v hu.start hv.start huv
    have hex := h.merges_le hg hu hx hux
    have hve := h.lt_of_leads hv.leads
    exact absurd (Fin.lt_of_lt_of_le hve (Fin.le_trans hex hxv)) (Fin.lt_irrefl v)
  intro he
  have hnodup : (g.pairing.startsOf.get e).Nodup := startsOf_get e ▸ (List.nodup_finRange g.size).filter _
  obtain ⟨u, hu, v, hv, hne⟩ := exists_ne_of_nodup hnodup he
  rw [mem_startsOf, mergeOf_eq_some_iff] at hu hv
  rcases lt_or_gt_of_ne hne with hlt | hlt
  · exact apart u v hlt hu hv
  · exact apart v u hlt hv hu

end Upward

end FlowPlan.Graph
