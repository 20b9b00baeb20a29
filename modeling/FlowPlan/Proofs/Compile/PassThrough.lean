import FlowPlan.Proofs.Compile.Parts

/-!
# Empty bodies

An empty body passes through to what follows its choice or parallel element. In a graph without loops, the lane of a successor is
empty exactly if the successor is the merge node. The body under a branch is empty exactly if the branch leads straight to the
merge node, or nowhere at all (`empty_body_iff`): a plan does not tell a branch at which the flow ends from one that passes through
(`lapse_passes_through`).
-/

namespace FlowPlan

open FlowPlan.Graph

variable {g : Graph} {w e : Fin g.size} {first : Option (Fin g.size)} {path : List (Fin g.size)} {es : List Element}

/-- Without loops, nothing is unfolded where a link leads exactly if it leads to the node to stop before. -/
theorem Unfolds.eq_nil_into_iff (hacyclic : g.Acyclic) (hp : Placed g (.into w) first (some e) path)
    (h : Unfolds g (.into w) first (some e) path es) : es = [] ↔ w = e := by
  constructor
  · rintro rfl
    cases h with
    | halted => rfl
    | looped hm => exact absurd hm (hp.not_mem_path hacyclic)
  · rintro rfl
    cases h with
    | halted => rfl
    | looped _ => rfl
    | step hstop _ _ _ => exact absurd rfl hstop
    | choice hstop _ _ _ _ _ _ _ => exact absurd rfl hstop

/-- Without loops, nothing is unfolded behind a node exactly if its only link leads to the node to stop before, or it has none. -/
theorem Unfolds.eq_nil_after_iff (hacyclic : g.Acyclic) (hp : Placed g (.after w) first (some e) path)
    (h : Unfolds g (.after w) first (some e) path es) : es = [] ↔ g.successorsAt w = [e] ∨ g.successorsAt w = [] := by
  cases h with
  | ends hs => simp [hs]
  | @follows _ u _ _ _ _ hs h =>
    rw [h.eq_nil_into_iff hacyclic (hp.follows (hs ▸ List.mem_singleton_self u)), hs]
    simp
  | fork hmany _ _ _ =>
    refine ⟨nofun, ?_⟩
    rintro (hs | hs) <;> simp [hs] at hmany

/-- The bodies of a choice or parallel element whose start is paired with a merge node, in the plan of a flow without loops that is
compiled without interceptors:
1. The body under a branch is empty exactly if the branch leads to the merge node and nowhere else, or has no links.
2. The lane of a successor is empty exactly if the successor is the merge node. -/
theorem empty_body_iff {c : Compiler} (hc : c.chain = []) {f : Flow} {g : Graph} (hg : c.index f = .ok g) (hacyclic : g.Acyclic)
    {route : Route} (hr : c.compile f = .ok route) {before : Option String} {element : Element} {rest : List Element}
    (hs : Stands g none route.steps before (element :: rest)) {start e : String} (hstart : element.start? before = some start)
    (he : g.branchEnd? start = some e) :
    (∀ branch body, BranchBody g element branch body →
        (body = [] ↔ g.successors branch = [e] ∨ g.successors branch = [])) ∧
      ∀ successor body, SuccessorBody g start element successor body → (body = [] ↔ successor = e) := by
  have h : Indexes c.catalog f.nodes f.edges g := indexes_of_build hg
  obtain ⟨entry, -, hunfolds⟩ := Compiler.unfolds_of_compileGraph hc (Compiler.compileGraph_of_compile hg hr)
  obtain ⟨place, first, stop, path, hbefore, hp, hunfolds⟩ := hunfolds.stands h (.entry entry) hs
  obtain ⟨v, rfl, hopening⟩ := hunfolds.opening_of_start hp (hbefore ▸ hstart)
  rw [h.branchEnd?_idAt, Option.map_eq_some_iff] at he
  obtain ⟨e, hmerge, rfl⟩ := he
  constructor
  · intro branch body hb
    obtain ⟨w, -, rfl, -, first, path, hp, hbody⟩ := hopening.branchBody h hb
    rw [hmerge] at hp hbody
    simp [hbody.eq_nil_after_iff hacyclic hp]
  · intro successor body hb
    obtain ⟨w, -, rfl, first, path, hp, hbody⟩ := hopening.successorBody h hb
    rw [hmerge] at hp hbody
    rw [hbody.eq_nil_into_iff hacyclic hp, h.idAt_inj]

/-- A choice at X. Its branches with a condition lead to D; the flow ends at the branch without one. -/
def Flow.lapse : Flow where
  id := "lapse"
  nodes := [
    { id := "X", component := "choice", branches := [⟨"a", some "amount < 100"⟩, ⟨"b", some "amount > 900"⟩, ⟨"o", none⟩] },
    { id := "D", component := "script" }]
  edges := [("a", "D"), ("b", "D")].map fun (source, target) => { source := source, target := target }

/-- Whether a sequence is a choice at X, with nothing under `a` or where no condition holds, and D behind it. -/
def Element.isLapse : List Element → Bool
  | [.choice _ node (arm :: _) (some []), .leaf last] =>
    node.id = "X" ∧ arm.id = "a" ∧ arm.body.isEmpty = true ∧ last.id = "D"
  | _ => false

/-- The plan of `Flow.lapse` is a choice with empty bodies, and D behind it. -/
theorem lapse_plan : ∃ (g : Graph) (route : Route) (id : String) (node last : Step) (arm : Arm Element) (arms : List (Arm Element)),
    Compiler.index {} Flow.lapse = .ok g ∧ g.Acyclic ∧ (g.branchEnd? "X" = some "D" ∧ g.successors "X" = ["a", "b", "o"] ∧
        g.successors "o" = [] ∧ (g.node? "o").map (·.kind) = some (.branch "X" none)) ∧
      Compiler.compile {} Flow.lapse = .ok route ∧ route.steps = [.choice id node (arm :: arms) (some []), .leaf last] ∧
        node.id = "X" ∧ arm.id = "a" ∧ arm.body = [] ∧ last.id = "D" := by
  obtain ⟨g, hg, hacyclic, hlinks⟩ : ∃ g, Compiler.index {} Flow.lapse = .ok g ∧ g.Acyclic ∧
      g.branchEnd? "X" = some "D" ∧ g.successors "X" = ["a", "b", "o"] ∧ g.successors "o" = [] ∧
        (g.node? "o").map (·.kind) = some (.branch "X" none) := by
    decide +kernel
  obtain ⟨route, hr, hplan⟩ : ∃ route, Compiler.compile {} Flow.lapse = .ok route ∧ Element.isLapse route.steps = true := by
    decide +kernel
  unfold Element.isLapse at hplan
  split at hplan
  · rename_i id node arm arms last hsteps
    obtain ⟨hnode, harm, hbody, hlast⟩ := of_decide_eq_true hplan
    exact ⟨g, route, id, node, last, arm, arms, hg, hacyclic, hlinks, hr, hsteps, hnode, harm, List.isEmpty_iff.1 hbody, hlast⟩
  · cases hplan

/-- In the plan of `Flow.lapse`, the body under `a` is empty, and so `a` leads to D. -/
theorem empty_body_iff_lapse : ∃ g route element rest, Compiler.index {} Flow.lapse = .ok g ∧ g.Acyclic ∧
    Compiler.compile {} Flow.lapse = .ok route ∧ Stands g none route.steps none (element :: rest) ∧
      element.start? none = some "X" ∧ g.branchEnd? "X" = some "D" ∧ BranchBody g element "a" [] ∧
        (g.successors "a" = ["D"] ∨ g.successors "a" = []) := by
  obtain ⟨g, route, id, node, last, arm, arms, hg, hacyclic, ⟨hend, -⟩, hr, hsteps, hnode, harm, hbody, -⟩ := lapse_plan
  have hs : Stands g none route.steps none (.choice id node (arm :: arms) (some []) :: [.leaf last]) := hsteps ▸ .here
  have hstart : Element.start? none (.choice id node (arm :: arms) (some [])) = some "X" := congrArg some hnode
  have hb : BranchBody g (.choice id node (arm :: arms) (some [])) "a" [] := by
    rw [← harm, ← hbody]
    exact .arm (List.mem_cons_self ..)
  exact ⟨g, route, _, _, hg, hacyclic, hr, hs, hstart, hend, hb,
    ((empty_body_iff rfl hg hacyclic hr hs hstart hend).1 "a" [] hb).1 rfl⟩

/-- In the plan of `Flow.lapse`, D follows the choice and the body under `o` is empty, though `o` does not lead to D. -/
theorem lapse_passes_through : ∃ g route element last rest, Compiler.index {} Flow.lapse = .ok g ∧ g.Acyclic ∧
    Compiler.compile {} Flow.lapse = .ok route ∧ Stands g none route.steps none (element :: .leaf last :: rest) ∧
      element.start? none = some "X" ∧ g.branchEnd? "X" = some last.id ∧ BranchBody g element "o" [] ∧
        last.id ∉ g.successors "o" := by
  obtain ⟨g, route, id, node, last, arm, arms, hg, hacyclic, ⟨hend, hsuccessors, hnone, hkind⟩, hr, hsteps, hnode, -, -, hlast⟩ :=
    lapse_plan
  obtain ⟨o, ho, hkind⟩ := Option.map_eq_some_iff.1 hkind
  have hb : BranchBody g (.choice id node (arm :: arms) (some [])) "o" [] := by
    refine .otherwise ?_ ho hkind
    rw [hnode, hsuccessors]
    decide
  refine ⟨g, route, .choice id node (arm :: arms) (some []), last, [], hg, hacyclic, hr, hsteps ▸ .here, congrArg some hnode,
    by rw [hend, hlast], hb, ?_⟩
  rw [hnone]
  exact List.not_mem_nil

end FlowPlan
