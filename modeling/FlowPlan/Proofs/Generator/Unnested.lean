import FlowPlan.Proofs.Compile.Success
import FlowPlan.Proofs.Generator.WellFormed

/-!
# Random flows without nesting

When the structures of a random flow are not nested, each stage opens branches at one node at most, and they meet at its last node.
No link passes over the last node of a stage (`Generator.Neck`). This is carried from stage to stage as `Generator.Spaced`, for
every ranking of ids that rises along the nodes. So the flow is in stages, no two branch starts share a merge node, and there are at
most as many branch starts as stages.

Main statement: such a flow compiles, with two levels of depth for each stage, and one more, and its plan has each node once
(`Generator.flow_compiles_once`).
-/

namespace FlowPlan

open FlowPlan.Flow FlowPlan.Graph

namespace Generator

/-! ## Necks -/

section Spacing

variable {rank : String → Nat} {tail next last : String} {nodes nodes' : List Flow.Node} {edges edges' : List Flow.Edge}
  {starts starts' : List String} {forks forks' : List Exit} {meets meets' : List String}

/-- No link passes over a rank. -/
def Neck (rank : String → Nat) (nodes : List Flow.Node) (edges : List Flow.Edge) (k : Nat) : Prop :=
  ∀ l ∈ linksOf nodes edges, rank l.1 < k → rank l.2 ≤ k

/-- A rank that no link of two parts passes over. -/
theorem Neck.append {k : Nat} (h : Neck rank nodes edges k) (h' : Neck rank nodes' edges' k) :
    Neck rank (nodes ++ nodes') (edges ++ edges') k := by
  intro l hl hlt
  rcases (linksOf_append nodes nodes' edges edges' l).1 hl with hl | hl
  · exact h l hl hlt
  · exact h' l hl hlt

/-- A part of a flow behind the node `tail` up to the node `last`, that opens branches at `starts` only. Where branches meet, and
between any two starts, there is a neck. -/
structure Spaced (rank : String → Nat) (tail last : String) (nodes : List Flow.Node) (edges : List Flow.Edge) (starts : List String)
    (forks : List Exit) (meets : List String) : Prop where
  growth : Growth [⟨tail, none⟩] nodes edges [⟨last, none⟩] forks meets
  le : rank tail ≤ rank last
  links : ∀ l ∈ linksOf nodes edges, rank tail ≤ rank l.1 ∧ rank l.2 ≤ rank last
  choices : ∀ n ∈ nodes, n.branches ≠ [] → n.id ∈ starts
  forked : ∀ x ∈ forks, x.id ∈ starts
  within : ∀ u ∈ starts, rank tail ≤ rank u ∧ rank u < rank last
  met : ∀ id ∈ meets, rank tail < rank id ∧ rank id ≤ rank last ∧ Neck rank nodes edges (rank id)
  apart : ∀ u ∈ starts, ∀ v ∈ starts, rank u < rank v → ∃ k, rank u < k ∧ k ≤ rank v ∧ Neck rank nodes edges k

namespace Spaced

/-- Nothing but a node. -/
theorem nil : Spaced rank tail tail [] [] [] [] [] where
  growth := .rest _
  le := Nat.le_refl _
  links := nofun
  choices := nofun
  forked := nofun
  within := nofun
  met := nofun
  apart := nofun

/-- No link passes over the last node, or over what is behind it. -/
theorem neck_of_le (h : Spaced rank tail last nodes edges starts forks meets) {k : Nat} (hk : rank last ≤ k) :
    Neck rank nodes edges k :=
  fun l hl _ => Nat.le_trans (h.links l hl).2 hk

/-- No link passes over the first node, or over what is in front of it. -/
theorem neck_of_ge (h : Spaced rank tail last nodes edges starts forks meets) {k : Nat} (hk : k ≤ rank tail) :
    Neck rank nodes edges k :=
  fun l hl hlt => absurd (Nat.lt_of_lt_of_le hlt (Nat.le_trans hk (h.links l hl).1)) (Nat.lt_irrefl _)

/-- Two parts one behind the other: the node between them is a neck. -/
theorem append (h : Spaced rank tail next nodes edges starts forks meets)
    (h' : Spaced rank next last nodes' edges' starts' forks' meets') :
    Spaced rank tail last (nodes ++ nodes') (edges ++ edges') (starts ++ starts') (forks ++ forks') (meets ++ meets') where
  growth := h.growth.follow h'.growth
  le := Nat.le_trans h.le h'.le
  links := by
    intro l hl
    rcases (linksOf_append nodes nodes' edges edges' l).1 hl with hl | hl
    · exact (h.links l hl).imp_right fun hle => Nat.le_trans hle h'.le
    · exact (h'.links l hl).imp_left fun hle => Nat.le_trans h.le hle
  choices := by
    intro n hn hb
    rcases List.mem_append.1 hn with hn | hn
    · exact List.mem_append_left _ (h.choices n hn hb)
    · exact List.mem_append_right _ (h'.choices n hn hb)
  forked := by
    intro x hx
    rcases List.mem_append.1 hx with hx | hx
    · exact List.mem_append_left _ (h.forked x hx)
    · exact List.mem_append_right _ (h'.forked x hx)
  within := by
    intro u hu
    rcases List.mem_append.1 hu with hu | hu
    · exact (h.within u hu).imp_right fun hlt => Nat.lt_of_lt_of_le hlt h'.le
    · exact (h'.within u hu).imp_left fun hle => Nat.le_trans h.le hle
  met := by
    intro id hid
    rcases List.mem_append.1 hid with hid | hid
    · obtain ⟨hlow, hhigh, hneck⟩ := h.met id hid
      exact ⟨hlow, Nat.le_trans hhigh h'.le, hneck.append (h'.neck_of_ge hhigh)⟩
    · obtain ⟨hlow, hhigh, hneck⟩ := h'.met id hid
      exact ⟨Nat.lt_of_le_of_lt h.le hlow, hhigh, (h.neck_of_le (Nat.le_of_lt hlow)).append hneck⟩
  apart := by
    intro u hu v hv huv
    rcases List.mem_append.1 hu with hu | hu <;> rcases List.mem_append.1 hv with hv | hv
    · obtain ⟨k, hlow, hhigh, hneck⟩ := h.apart u hu v hv huv
      have hk : k ≤ rank next := Nat.le_trans hhigh (Nat.le_of_lt (h.within v hv).2)
      exact ⟨k, hlow, hhigh, hneck.append (h'.neck_of_ge hk)⟩
    · have hnext := (h.neck_of_le (Nat.le_refl _)).append (h'.neck_of_ge (Nat.le_refl _))
      exact ⟨rank next, (h.within u hu).2, (h'.within v hv).1, hnext⟩
    · have hu' := (h'.within u hu).1
      have hv' := (h.within v hv).2
      omega
    · obtain ⟨k, hlow, hhigh, hneck⟩ := h'.apart u hu v hv huv
      have hk : rank next ≤ k := Nat.le_trans (h'.within u hu).1 (Nat.le_of_lt hlow)
      exact ⟨k, hlow, hhigh, (h.neck_of_le hk).append hneck⟩

end Spaced

/-! ## Stages -/

/-- The ids of nodes that end with a plain one end with its id. -/
theorem EndsAt.takenIds_eq (h : EndsAt nodes last) (hmade : ∀ n ∈ nodes, Made n) :
    takenIds .standard nodes = takenIds .standard nodes.dropLast ++ [last] := by
  obtain ⟨front, n, rfl, rfl, hn⟩ := h
  rw [List.dropLast_concat, takenIds_of_made hmade, takenIds_of_made fun m hm => hmade m (List.mem_append_left _ hm),
    List.flatMap_append, List.flatMap_singleton, hn]
  rfl

/-- A link of a growth leads from its tail or one of its ids to one of its ids. -/
theorem ends_of_growth {tips : List Exit} (h : Growth [⟨tail, none⟩] nodes edges tips forks meets) (hmade : ∀ n ∈ nodes, Made n)
    {l : String × String} (hl : l ∈ linksOf nodes edges) :
    l.1 ∈ tail :: takenIds .standard nodes ∧ l.2 ∈ takenIds .standard nodes := by
  rw [takenIds_of_made hmade]
  have mem : ∀ n ∈ nodes, ∀ id ∈ n.id :: n.branches.map (·.id), id ∈ nodes.flatMap fun n => n.id :: n.branches.map (·.id) :=
    fun n hn id hid => List.mem_flatMap.2 ⟨n, hn, hid⟩
  rcases link_cases h hl with ⟨n, hn, hsource, htarget⟩ | ⟨front, n, back, rfl, htarget, hsource⟩
  · exact ⟨List.mem_cons_of_mem _ (mem n hn _ (hsource ▸ List.mem_cons_self ..)), mem n hn _ (List.mem_cons_of_mem _ htarget)⟩
  · refine ⟨?_, mem n (by simp) _ (htarget ▸ List.mem_cons_self ..)⟩
    rcases hsource with hsource | ⟨m, hm, hsource⟩
    · exact hsource ▸ List.mem_cons_self ..
    · exact List.mem_cons_of_mem _ (mem m (List.mem_append_left _ hm) _ hsource)

/-- A part that opens branches at one node at most, and where they meet at its end, is spaced. -/
theorem Single.spaced (h : Single starts tail last nodes forks meets)
    (hgrowth : Growth [⟨tail, none⟩] nodes edges [⟨last, none⟩] forks meets) (hends : EndsAt nodes last)
    (hmade : ∀ n ∈ nodes, Made n) (hrank : (tail :: takenIds .standard nodes).Pairwise fun a b => rank a < rank b) :
    Spaced rank tail last nodes edges starts forks meets := by
  have htaken := hends.takenIds_eq hmade
  obtain ⟨hlow, hrising⟩ := List.pairwise_cons.1 hrank
  have hlast : last ∈ takenIds .standard nodes := htaken ▸ List.mem_append_right _ (List.mem_singleton_self _)
  have hbelow : ∀ id ∈ takenIds .standard nodes.dropLast, rank id < rank last := fun id hid =>
    (List.pairwise_append.1 (htaken ▸ hrising)).2.2 id hid last (List.mem_singleton_self _)
  have hlinks : ∀ l ∈ linksOf nodes edges, rank tail ≤ rank l.1 ∧ rank l.2 ≤ rank last := by
    intro l hl
    obtain ⟨hsource, htarget⟩ := ends_of_growth hgrowth hmade hl
    rw [htaken, List.mem_append, List.mem_singleton] at htarget
    constructor
    · rcases List.mem_cons.1 hsource with heq | hid
      · exact Nat.le_of_eq (heq ▸ rfl)
      · exact Nat.le_of_lt (hlow _ hid)
    · rcases htarget with hid | heq
      · exact Nat.le_of_lt (hbelow _ hid)
      · exact Nat.le_of_eq (heq ▸ rfl)
  have hstarts : ∀ u ∈ starts, rank tail ≤ rank u ∧ rank u < rank last := by
    intro u hu
    rcases List.mem_cons.1 (h.place u hu) with rfl | hid
    · exact ⟨Nat.le_refl _, hlow last hlast⟩
    · obtain ⟨n, hn, rfl⟩ := List.mem_map.1 hid
      have hmem : n.id ∈ takenIds .standard nodes.dropLast :=
        List.mem_flatMap.2 ⟨n, hn, List.mem_cons_self ..⟩
      exact ⟨Nat.le_of_lt (hlow _ (htaken ▸ List.mem_append_left _ hmem)), hbelow _ hmem⟩
  refine ⟨hgrowth, Nat.le_of_lt (hlow last hlast), hlinks, h.choices, h.forked, hstarts, fun id hid => ?_, fun u hu v hv huv => ?_⟩
  · rw [h.met id hid]
    exact ⟨hlow last hlast, Nat.le_refl _, fun l hl _ => (hlinks l hl).2⟩
  · have hone := h.one
    obtain ⟨start, rfl⟩ : ∃ start, starts = [start] := List.length_eq_one_iff.1 (by have := List.length_pos_of_mem hu; omega)
    rw [List.mem_singleton.1 hu, List.mem_singleton.1 hv] at huv
    exact absurd huv (Nat.lt_irrefl _)

/-- A ranking that rises along two parts one behind the other rises along each of them. -/
theorem pairwise_takenIds_append {R : String → String → Prop} {ids : List String}
    (h : (tail :: takenIds .standard (nodes ++ nodes')).Pairwise R) (hids : tail :: takenIds .standard nodes = ids ++ [next]) :
    (tail :: takenIds .standard nodes).Pairwise R ∧ (next :: takenIds .standard nodes').Pairwise R := by
  have htaken : tail :: takenIds .standard (nodes ++ nodes') = (ids ++ [next]) ++ takenIds .standard nodes' := by
    rw [← hids]
    exact congrArg (tail :: ·) List.flatMap_append
  rw [htaken] at h
  refine ⟨hids ▸ h.sublist (List.sublist_append_left _ _), h.sublist ?_⟩
  rw [List.append_assoc]
  exact List.sublist_append_right ..

/-- The last node of a row stands last among its ids, or is the node that the row stands behind. -/
theorem Row.exists_ids {depth count : Nat} (h : Row depth count tail last nodes edges) (hmade : ∀ n ∈ nodes, Made n) :
    ∃ ids, tail :: takenIds .standard nodes = ids ++ [last] := by
  induction h with
  | nil => exact ⟨[], rfl⟩
  | @cons count tail next last nodes nodes' _ _ _ _ hstage _ ih =>
    obtain ⟨hmade, hmade'⟩ := List.forall_mem_append.1 hmade
    obtain ⟨ids, hids⟩ := ih hmade'
    refine ⟨tail :: (takenIds .standard nodes.dropLast ++ ids), ?_⟩
    have htaken : takenIds .standard (nodes ++ nodes') = takenIds .standard nodes ++ takenIds .standard nodes' :=
      List.flatMap_append
    rw [htaken, hstage.ends.takenIds_eq hmade, List.append_assoc, List.singleton_append, hids, List.cons_append, List.append_assoc]

/-- Rows of stages that are not nested are spaced, with a start for each stage at most. -/
theorem Row.spaced {depth count : Nat} (hdepth : depth ≤ 1) (h : Row depth count tail last nodes edges)
    (hmade : ∀ n ∈ nodes, Made n) (hrank : (tail :: takenIds .standard nodes).Pairwise fun a b => rank a < rank b) :
    ∃ starts forks meets, starts.length ≤ count ∧ Spaced rank tail last nodes edges starts forks meets := by
  induction h with
  | nil => exact ⟨[], [], [], Nat.le_refl 0, .nil⟩
  | @cons count tail next last nodes nodes' edges edges' forks meets hstage _ ih =>
    obtain ⟨hmade, hmade'⟩ := List.forall_mem_append.1 hmade
    obtain ⟨starts, hsingle⟩ := hstage.single hdepth
    have hids : tail :: takenIds .standard nodes = (tail :: takenIds .standard nodes.dropLast) ++ [next] :=
      congrArg (tail :: ·) (hstage.ends.takenIds_eq hmade)
    obtain ⟨hfront, hback⟩ := pairwise_takenIds_append hrank hids
    obtain ⟨starts', forks', meets', hlength, hspaced⟩ := ih hmade' hback
    refine ⟨starts ++ starts', _, _, ?_, (hsingle.spaced hstage.growth hstage.ends hmade hfront).append hspaced⟩
    have hone := hsingle.one
    rw [List.length_append]
    omega

end Spacing

/-! ## Flows -/

namespace Outline

variable {k depth count : Nat} {f : Flow} {start finish : Flow.Node}

/-- All that follows the start node of a flow without nesting is spaced. -/
theorem spaced (h : Outline k depth count f start finish) (hdepth : depth ≤ 1) {rank : String → Nat}
    (hrank : (takenIds .standard f.nodes).Pairwise fun a b => rank a < rank b) : ∃ later starts forks meets,
      f.nodes = start :: later ∧ starts.length ≤ count ∧ Spaced rank start.id finish.id later f.edges starts forks meets := by
  obtain ⟨last, nodes, edges, hrow, hnodes, hedges⟩ := h.row
  have hmade : ∀ n ∈ nodes ++ [finish], Made n := fun n hn => h.numbered.made n (hnodes ▸ List.mem_cons_of_mem _ hn)
  obtain ⟨hmade, hmade'⟩ := List.forall_mem_append.1 hmade
  obtain ⟨ids, hids⟩ := hrow.exists_ids hmade
  obtain ⟨hfront, hback⟩ := pairwise_takenIds_append (h.takenIds_eq hnodes ▸ hrank) hids
  obtain ⟨starts, forks, meets, hlength, hspaced⟩ := hrow.spaced hdepth hmade hfront
  -- the end node is one part more, without branches
  have hfinish : ∀ n ∈ [finish], n.branches = [] := by simpa using h.finish_branches
  have hend := (Single.of_straight hfinish).spaced (.attach_plain h.finish_branches) ⟨[], finish, rfl, rfl, h.finish_branches⟩
    hmade' hback
  exact ⟨nodes ++ [finish], _, _, _, hnodes, by simpa using hlength, hedges ▸ hspaced.append hend⟩

section Indexed

variable (h : Outline k depth count f start finish) {g : Graph} (hg : Indexes .standard f.nodes f.edges g)

include h hg

/-- A neck among the ids is a waist of the graph. -/
theorem waist_of_neck {rank : String → Nat} (hrank : ∀ v, rank (g.idAt v) = v.val) {x : Fin g.size}
    (hx : Neck rank f.nodes f.edges x.val) : g.Waist x := by
  intro v w hw hv
  have hle := hx _ ((h.mem_successorsAt_iff hg).1 hw)
  rw [hrank, hrank] at hle
  exact hle hv

/-- A link from a node that is not conditional is the one of an edge. -/
theorem exists_edge {v w : Fin g.size} (hv : (g.node v).isConditional = false) (hw : w ∈ g.successorsAt v) :
    ∃ e ∈ f.edges, e.exit.id = g.idAt v ∧ e.target = g.idAt w := by
  rcases mem_linksOf.1 ((h.mem_successorsAt_iff hg).1 hw) with ⟨n, hn, b, hb, hid, -⟩ | hedge
  · have hshape := (h.numbered.made n hn).shape_iff.2 (List.ne_nil_of_mem hb)
    rw [isConditional_of_kind (hg.kind_of_conditional_at hn hshape hid)] at hv
    cases hv
  · exact hedge

/-- A merge node is one where branches meet. -/
theorem mem_meets_of_ends {later : List Flow.Node} {tips forks : List Exit} {meets : List String} (hnodes : f.nodes = start :: later)
    (hgrowth : Growth [⟨start.id, none⟩] later f.edges tips forks meets) {e : Fin g.size} (he : 1 < (g.predecessorsAt e).length) :
    g.idAt e ∈ meets := by
  have edge_to : ∀ u ∈ g.predecessorsAt e, ∃ x ∈ f.edges, x.exit.id = g.idAt u ∧ x.target = g.idAt e := by
    intro u hu
    have hlink := hg.mem_predecessorsAt_iff.1 hu
    exact h.exists_edge hg (hg.not_conditional_of_successor (hg.not_branch_of_ends he) hlink) hlink
  obtain ⟨u, hu, u', hu', hne⟩ := exists_ne_of_nodup (hg.nodup_predecessorsAt e) he
  obtain ⟨x, hx, hxu, htarget⟩ := edge_to u hu
  obtain ⟨x', hx', hxu', htarget'⟩ := edge_to u' hu'
  have hdistinct : x ≠ x' := by
    rintro rfl
    exact hne (hg.ids_injective (hxu.symm.trans hxu'))
  have hids : (later.map (·.id)).Nodup := by
    have hall := h.numbered.nodup_ids
    rw [hnodes] at hall
    exact hall.of_cons
  exact htarget ▸ hgrowth.mem_meets hids hx hx' hdistinct (htarget.trans htarget'.symm)

/-- A node with several successors is one where branches are opened. -/
theorem mem_starts_of_splits {rank : String → Nat} {later : List Flow.Node} {starts meets : List String} {forks : List Exit}
    (hnodes : f.nodes = start :: later) (hspaced : Spaced rank start.id finish.id later f.edges starts forks meets)
    {v : Fin g.size} (hv : 1 < (g.successorsAt v).length) : g.idAt v ∈ starts := by
  cases hc : (g.node v).isConditional with
  | true =>
    obtain ⟨ids, hk⟩ := kind_of_isConditional hc
    obtain ⟨n, hn, hshape, hid, -⟩ := hg.exists_conditional hk
    have hbranches := (h.numbered.made n hn).shape_iff.1 hshape
    rw [hnodes] at hn
    rcases List.mem_cons.1 hn with rfl | hn
    · exact absurd h.start_branches hbranches
    · exact hid ▸ hspaced.choices n hn hbranches
  | false =>
    obtain ⟨w, hw, w', hw', hne⟩ := exists_ne_of_nodup (hg.nodup_successorsAt v) hv
    obtain ⟨x, hx, hexit, htarget⟩ := h.exists_edge hg hc hw
    obtain ⟨x', hx', hexit', htarget'⟩ := h.exists_edge hg hc hw'
    have hdistinct : x ≠ x' := by
      rintro rfl
      exact hne (hg.ids_injective (htarget.symm.trans htarget'))
    have hexits : f.nodes.flatMap Node.exits = [⟨start.id, none⟩] ++ later.flatMap Node.exits := by
      rw [hnodes, List.flatMap_cons, Node.exits_of_plain h.start_branches]
    have hnodup := h.numbered.nodup_exits
    have mem : ∀ x ∈ f.edges, x.exit ∈ f.nodes.flatMap Node.exits := fun x hx =>
      (h.exists_ends hx).1.elim fun n hn => List.mem_flatMap.2 ⟨n, hn⟩
    have hsame : x.exit = x'.exit := List.inj_on_of_nodup_map hnodup (mem x hx) (mem x' hx') (hexit.trans hexit'.symm)
    exact hexit ▸ hspaced.forked _ (hspaced.growth.mem_forks (hexits ▸ hnodup.of_map) hx hx' hdistinct hsame)

/-- Components are known, and a conditional node has two branches or more. -/
theorem runnable {first : Fin g.size} (hfirst : first.val = 0) : g.Runnable first where
  acyclic := (h.upward hg).acyclic
  entry_eq := (h.upward hg).entry_first hg hfirst
  recognized := by
    intro v hk
    rcases hg.origin v with ⟨n, hn, kind, hkind, hv⟩ | ⟨n, -, -, b, -, hv⟩
    · obtain ⟨-, rfl⟩ := Node.kindOf_eq_ok_iff.1 hkind
      rw [hv] at hk
      exact (h.numbered.made n hn).kindIn_ne hk
    · rw [hv] at hk
      cases hk
  branching := by
    intro v hv
    obtain ⟨ids, hk⟩ := kind_of_isConditional hv
    obtain ⟨n, hn, hshape, -, hids⟩ := hg.exists_conditional hk
    obtain ⟨m, -, -, hids', -, hmatch⟩ := hg.successors_conditional hk
    have htwo := (h.numbered.made n hn).two_le_branches ((h.numbered.made n hn).shape_iff.1 hshape)
    rw [hmatch.length_eq, ← List.length_map (f := (·.id)), ← hids', hids, List.length_map]
    exact htwo

/-- A flow without nesting is in stages, no two branch starts share a merge node, and there are at most as many branch starts as
stages. -/
theorem staged (hdepth : depth ≤ 1) :
    g.Staged ∧ (∀ e, ¬ g.Shared e) ∧ (g.splits fun _ => True).card ≤ count := by
  obtain ⟨rank, hrising, hrank⟩ : ∃ rank : String → Nat, ((takenIds .standard f.nodes).Pairwise fun a b => rank a < rank b) ∧
      ∀ v, rank (g.idAt v) = v.val :=
    ⟨fun id => (takenIds .standard f.nodes).idxOf id, pairwise_idxOf h.numbered.nodup_takenIds, hg.idxOf_idAt⟩
  obtain ⟨later, starts, forks, meets, hnodes, hlength, hspaced⟩ := h.spaced hdepth hrising
  have hwaist : ∀ x : Fin g.size, Neck rank later f.edges x.val → g.Waist x := by
    intro x hx
    refine h.waist_of_neck hg hrank ?_
    rwa [Neck, hnodes, linksOf_cons h.start_branches]
  have hstart : ∀ v, 1 < (g.successorsAt v).length → g.idAt v ∈ starts := fun v hv => h.mem_starts_of_splits hg hnodes hspaced hv
  have hupward := h.upward hg
  refine ⟨hupward.staged hg fun e he => hwaist e ?_, hupward.not_shared hg fun u v hu hv huv => ?_, ?_⟩
  · have hmet := hspaced.met _ (h.mem_meets_of_ends hg hnodes hspaced.growth he)
    rw [hrank] at hmet
    exact hmet.2.2
  · obtain ⟨k, hlow, hhigh, hneck⟩ := hspaced.apart _ (hstart u hu) _ (hstart v hv) (by rwa [hrank, hrank])
    rw [hrank] at hlow hhigh
    exact ⟨⟨k, Nat.lt_of_le_of_lt hhigh v.isLt⟩, hwaist _ hneck, hlow, hhigh⟩
  · refine Nat.le_trans ?_ (Nat.le_trans starts.toFinset_card_le hlength)
    refine Finset.card_le_card_of_injOn g.idAt (fun v hv => ?_) fun v _ w _ => fun heq => hg.ids_injective heq
    exact List.mem_toFinset.2 (hstart v (mem_splits.1 hv).1)

end Indexed

end Outline

end Generator

/-! ## Plans -/

/-- With fair dice, two branches or more for each structure and no nesting a generator makes a flow that compiles, whatever the dice
decide: with the standard catalog, without interceptors, and with two levels of depth for each stage, and one more. Its plan has
each node of the flow exactly once. That the flow fits into memory, where a list has less than half as many entries as a word counts,
is asked for since the limit on the elements is a word. -/
theorem Generator.flow_compiles_once {σ : Type} {dice : Random.Dice σ} (hd : dice.Fair) {width : Nat} (hw : 2 ≤ width) (id : String)
    {depth : Nat} (hdepth : depth ≤ 1) (count : Nat) (state : σ) (counter : Nat)
    (hsize : (takenIds .standard (flowFrom dice width id depth count state counter).nodes).length < Nat.pow 2 63) {c : Compiler}
    (hcatalog : c.catalog = .standard) (hc : c.chain = []) (hlevels : 2 * count + 1 ≤ c.maxDepth) :
    ∃ route, c.compile (flowFrom dice width id depth count state counter) = .ok route ∧
      route.nodeIds.Perm ((flowFrom dice width id depth count state counter).nodes.map (·.id)) ∧ route.nodeIds.Nodup := by
  obtain ⟨start, finish, h⟩ := outline_flowFrom hd hw id depth count state counter
  generalize flowFrom dice width id depth count state counter = f at h hsize ⊢
  obtain ⟨g, hbuild⟩ := h.wellFormed.exists_build
  have hg := indexes_of_build hbuild
  obtain ⟨first, -, -, -, hzero, -⟩ := h.exists_first_last hg
  have hrunnable := h.runnable hg hzero
  obtain ⟨hstaged, hshared, hsplits⟩ := h.staged hg hdepth
  have hindex : c.index f = .ok g := by rw [Compiler.index, hcatalog, hbuild]
  obtain ⟨route, hr⟩ : ∃ route, c.compileGraph f.id g = .ok route :=
    hrunnable.exists_route hg hstaged (by omega) (hg.length_takenIds ▸ hsize)
  have hperm := hrunnable.nodeIds_once hg hstaged hshared hc hr
  exact ⟨route, (Compiler.compile_of_index hindex).trans hr, hperm, hperm.nodup_iff.2 h.numbered.nodup_ids⟩

/-- The flow of a seed, with two stages that are at most three branches wide, takes a depth of five. -/
theorem Generator.flow_compiles_once_seed : Random.Stream.dice.Fair ∧ 2 ≤ 3 ∧ 1 ≤ 1 ∧ 2 * 2 + 1 ≤ 5 ∧
    (takenIds .standard (flowFrom Random.Stream.dice 3 "generated-42" 1 2 (.ofSeed 42) 0).nodes).length < Nat.pow 2 63 ∧
      ∃ route, Compiler.compile { maxDepth := 5 } (flowFrom Random.Stream.dice 3 "generated-42" 1 2 (.ofSeed 42) 0) = .ok route ∧
        route.nodeIds.Perm ((flowFrom Random.Stream.dice 3 "generated-42" 1 2 (.ofSeed 42) 0).nodes.map (·.id)) ∧
          route.nodeIds.Nodup := by
  have hfair := Random.Stream.fair_dice
  have hsize : (takenIds .standard (flowFrom Random.Stream.dice 3 "generated-42" 1 2 (.ofSeed 42) 0).nodes).length < Nat.pow 2 63 := by
    decide +kernel
  exact ⟨hfair, by decide, by decide, by decide, hsize,
    flow_compiles_once hfair (by decide) "generated-42" (Nat.le_refl 1) 2 (.ofSeed 42) 0 hsize rfl rfl (by decide)⟩

end FlowPlan
