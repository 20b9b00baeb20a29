import FlowPlan.Proofs.Compile.Interception
import FlowPlan.Proofs.Graph.Blanking

/-!
# Parameters and conditions

Parameters and the texts of conditions decide nothing in a compilation: flows that are the same when they are blanked end with the
same error or with plans that are the same when they are blanked (`compile_blanked`). What a plan has of them it copies from its
flow: each step has the converted parameters of its node, and each arm the condition of its branch (`Unfolds.copied`).
-/

namespace FlowPlan

open FlowPlan.Graph

/-! ## Plans without parameters and conditions -/

/-- A step without parameters. -/
def Step.blank (s : Step) : Step :=
  { s with parameters := ∅ }

namespace Element

/-- An arm with its condition emptied. -/
def emptied (a : Arm Element) : Arm Element :=
  { a with condition := "" }

/-- An element without parameters and with emptied conditions of its own; its bodies are as they were. -/
def blanked : Element → Element
  | .sequential node => .sequential node.blank
  | .leaf node => .leaf node.blank
  | .choice id node arms otherwise => .choice id node.blank (arms.map emptied) otherwise
  | .parallel id lanes => .parallel id lanes

/-- Sequences that are the same when they are blanked. -/
def SameBlanked (es' es : List Element) : Prop :=
  mappedBody blanked es' = mappedBody blanked es

/-- Plans that are the same when blanked are so when they are put together. -/
theorem SameBlanked.append {es' es ds' ds : List Element} (h : SameBlanked es' es) (h' : SameBlanked ds' ds) :
    SameBlanked (es' ++ ds') (es ++ ds) := by
  rw [SameBlanked, mappedBody_append, mappedBody_append, h, h']

/-- Elements are the same when they are blanked if they are when their bodies are. -/
theorem sameBlanked_single {e' e : Element} (h : blanked (refilled blanked e') = blanked (refilled blanked e)) :
    SameBlanked [e'] [e] := by
  have hmapped : mapped blanked e' = mapped blanked e := by
    rw [mapped_eq, mapped_eq, h]
  exact congrArg (· :: []) hmapped

/-- Bodies with their conditions emptied. -/
def emptiedBodies (bodies : List (String × Option String × List Element)) : List (String × Option String × List Element) :=
  bodies.map fun (id, condition, body) => (id, condition.map fun _ => "", body)

/-- The arms of a choice with emptied conditions are its arms, emptied. -/
theorem armsOf_emptiedBodies (bodies : List (String × Option String × List Element)) :
    Setting.armsOf (emptiedBodies bodies) = (Setting.armsOf bodies).map emptied := by
  induction bodies with
  | nil => rfl
  | cons b rest ih =>
    obtain ⟨id, condition, body⟩ := b
    cases condition with
    | none => exact ih
    | some c => exact congrArg (_ :: ·) ih

/-- Which body has no condition does not depend on the conditions of the others. -/
theorem otherwiseOf_emptiedBodies (bodies : List (String × Option String × List Element)) :
    Setting.otherwiseOf (emptiedBodies bodies) = Setting.otherwiseOf bodies := by
  rw [Setting.otherwiseOf_eq, Setting.otherwiseOf_eq, emptiedBodies, List.filter_map, List.map_map]
  refine congrArg (fun p => ((bodies.filter p).map (·.2.2)).getLast?) (funext fun b => ?_)
  exact Option.isNone_map

/-- Choices are the same when they are blanked if their steps and their bodies are. -/
theorem sameBlanked_choice {id : String} {node' node : Step} {bodies' bodies : List (String × Option String × List Element)}
    (hnode : node'.blank = node.blank)
    (hbodies : emptiedBodies (mappedBodies blanked bodies') = emptiedBodies (mappedBodies blanked bodies)) :
    SameBlanked [.choice id node' (Setting.armsOf bodies') (Setting.otherwiseOf bodies')]
      [.choice id node (Setting.armsOf bodies) (Setting.otherwiseOf bodies)] := by
  refine sameBlanked_single ?_
  have harms := congrArg Setting.armsOf hbodies
  have hotherwise := congrArg Setting.otherwiseOf hbodies
  rw [armsOf_emptiedBodies, armsOf_emptiedBodies, armsOf_mappedBodies, armsOf_mappedBodies] at harms
  rw [otherwiseOf_emptiedBodies, otherwiseOf_emptiedBodies, otherwiseOf_mappedBodies, otherwiseOf_mappedBodies] at hotherwise
  rw [refilled, refilled, blanked, blanked, hnode, harms, hotherwise]

end Element

/-- A plan without parameters and with emptied conditions, at whatever depth. -/
def Route.blank (r : Route) : Route :=
  { r with steps := Element.mappedBody Element.blanked r.steps }

/-! ## Plans side by side -/

namespace Setting

variable {g g' : Graph} {r : Fin g.size ≃ Fin g'.size}

section Related

variable (h : SameShape g g' r)

include h

/-- Nodes that differ in their parameters give steps that do. -/
theorem blank_toStep (v : Fin g.size) : (g'.node (r v)).toStep.blank = (g.node v).toStep.blank := by
  rw [Step.blank, Step.blank, Node.toStep, Node.toStep, (h.node v).id, (h.node v).component]

/-- Steps on a node and on its image are the same when blanked. -/
theorem sameBlanked_stepOn (v : Fin g.size) : Element.SameBlanked [g'.stepOn (r v)] [g.stepOn v] := by
  refine Element.sameBlanked_single ?_
  rw [Graph.stepOn, Graph.stepOn, h.successors, List.isEmpty_map]
  split
  · exact congrArg Element.leaf (blank_toStep h v)
  · exact congrArg Element.sequential (blank_toStep h v)

/-- The bodies of a choice, one by one. -/
theorem sameBlanked_arms {l : List Element} {bodies' : List (ArmBody g'.size)} {bodies : List (ArmBody g.size)}
    (hbodies : ArmsRelated (fun _ es' es => Element.SameBlanked es' es) r l bodies' bodies) :
    Element.emptiedBodies (Element.mappedBodies Element.blanked (bodies'.map (ArmBody.named g'))) =
      Element.emptiedBodies (Element.mappedBodies Element.blanked (bodies.map (ArmBody.named g))) := by
  induction hbodies with
  | nil => rfl
  | @cons branch parent condition' condition l body' body m bodies' bodies _ _ hc hbody _ ih =>
    have hcondition : condition'.map (fun _ => "") = condition.map fun _ => "" := by
      cases condition' <;> cases condition <;> first | rfl | cases hc
    have hnamed : (g'.idAt (r branch), condition'.map (fun _ => ""), Element.mappedBody Element.blanked body') =
        (g.idAt branch, condition.map (fun _ => ""), Element.mappedBody Element.blanked body) := by
      rw [h.idAt, hcondition, hbody]
    exact congrArg₂ List.cons hnamed ih

omit h in
/-- The bodies of a parallel element, one by one. -/
theorem sameBlanked_lanes {l : List Element} {lanes' : List (LaneBody g'.size)} {lanes : List (LaneBody g.size)}
    (hlanes : LanesRelated (fun _ es' es => Element.SameBlanked es' es) r l lanes' lanes) (id : String) (index : Nat) :
    Element.mappedLanes Element.blanked (LaneBody.lanes id index lanes') =
      Element.mappedLanes Element.blanked (LaneBody.lanes id index lanes) := by
  induction hlanes generalizing index with
  | nil => rfl
  | cons hbody _ ih =>
    rw [LaneBody.lanes, LaneBody.lanes, Element.mappedLanes, Element.mappedLanes, hbody, ih (index + 1)]

/-- To be the same when it is blanked goes along with putting a plan together. -/
theorem relates_blanked {s : Setting g'} {t : Setting g} (hs : s.chain = []) (ht : t.chain = []) :
    Relates (fun _ es' es => Element.SameBlanked es' es) r s t where
  nil := rfl
  append := Element.SameBlanked.append
  step v := by
    rw [hook_eq_self hs, hook_eq_self ht]
    exact sameBlanked_stepOn h v
  choice := by
    intro id v l bodies' bodies _ hbodies
    rw [hook_eq_self hs, hook_eq_self ht]
    exact Element.sameBlanked_choice (blank_toStep h v) (sameBlanked_arms h hbodies)
  parallel := by
    intro id l lanes' lanes hlanes
    rw [hook_eq_self hs, hook_eq_self ht]
    exact Element.sameBlanked_single (congrArg (Element.parallel id) (sameBlanked_lanes hlanes id 0))

end Related

end Setting

/-! ## What is copied -/

/-- A node of a flow as a step of a plan. -/
def Flow.Node.toStep (n : Flow.Node) : Step where
  id := n.id
  component := n.component
  parameters := Value.ofParameters n.parameters

/-- A step is that of the only node with its id, parameters included. -/
def Step.Copies (nodes : List Flow.Node) (node : Step) (n : Flow.Node) : Prop :=
  nodes.filter (·.id = node.id) = [n] ∧ node = n.toStep

/-- The steps of an element are copied from the nodes of a flow, and the arms of a choice have the ids and conditions of the
branches with a condition, in order. -/
def Element.Copied (nodes : List Flow.Node) : Element → Prop
  | .sequential node => ∃ n, node.Copies nodes n
  | .leaf node => ∃ n, node.Copies nodes n
  | .choice _ node arms _ => ∃ n, node.Copies nodes n ∧
      arms.map (fun a => (a.id, a.condition)) = n.branches.filterMap fun b => b.condition.map (b.id, ·)
  | .parallel .. => True

section Copied

variable {catalog : NodeCatalog} {nodes : List Flow.Node} {edges : List Flow.Edge} {g : Graph}

/-- A declared node is the only one with its id. -/
theorem Graph.Indexes.filter_id (hg : Indexes catalog nodes edges g) {n : Flow.Node} (hn : n ∈ nodes) :
    nodes.filter (·.id = n.id) = [n] := by
  have hnodup := hg.nodup_declared
  obtain ⟨before, after, rfl⟩ := List.append_of_mem hn
  rw [List.map_append, List.map_cons] at hnodup
  have hapart : n.id ∉ before.map (·.id) ++ after.map (·.id) := (List.nodup_middle.1 hnodup).notMem
  rw [List.mem_append, not_or] at hapart
  have hother : ∀ l : List Flow.Node, n.id ∉ l.map (·.id) → l.filter (·.id = n.id) = [] := by
    intro l hl
    refine List.filter_eq_nil_iff.2 fun m hm he => hl ?_
    exact List.mem_map.2 ⟨m, hm, of_decide_eq_true he⟩
  rw [List.filter_append, List.filter_cons_of_pos (by simp), hother before hapart.1, hother after hapart.2]
  rfl

/-- The step of a declared node. -/
theorem Graph.Indexes.copies (hg : Indexes catalog nodes edges g) {v : Fin g.size} {n : Flow.Node} (hn : n ∈ nodes) {kind : Kind}
    (hv : g.node v = .declared n kind) : (g.node v).toStep.Copies nodes n := by
  rw [hv]
  exact ⟨hg.filter_id hn, rfl⟩

/-- A step on a plain node. -/
theorem Graph.Indexes.copied_stepOn (hg : Indexes catalog nodes edges g) {v : Fin g.size} (hk : (g.node v).kind = .plain) :
    (g.stepOn v).Copied nodes := by
  rcases hg.origin v with ⟨n, hn, kind, -, hv⟩ | ⟨n, -, -, b, -, hv⟩
  · unfold stepOn
    split
    · exact ⟨n, hg.copies hn hv⟩
    · exact ⟨n, hg.copies hn hv⟩
  · rw [hv] at hk
    cases hk

/-- A choice on a conditional node. -/
theorem Graph.Indexes.copied_choiceOn (hg : Indexes catalog nodes edges g) {v : Fin g.size} {ids : List String} (id : String)
    {bodies : List (ArmBody g.size)} (hk : (g.node v).kind = .conditional ids)
    (hbranches : bodies.map ArmBody.branch = g.successorsAt v)
    (hkinds : ∀ b ∈ bodies, ∃ parent, (g.node b.branch).kind = .branch parent b.condition) :
    (g.choiceOn id v bodies).Copied nodes := by
  obtain ⟨n, hn, hv, -, hmatch⟩ := hg.bodies_of_conditional hk hbranches hkinds
  exact ⟨n, hg.copies hn hv, SoundnessAux.map_armsOf hmatch⟩

/-- Every element that is unfolded, at whatever depth, is copied from the flow. -/
theorem Unfolds.copied (hg : Indexes catalog nodes edges g) {place : Place g.size} {first stop : Option (Fin g.size)}
    {path : List (Fin g.size)} {es : List Element} (h : Unfolds g place first stop path es) :
    ∀ e ∈ Element.partsOfBody es, e.Copied nodes := by
  induction h with
  | halted => exact List.forall_mem_nil _
  | looped _ => exact List.forall_mem_nil _
  | @step v first stop path rest _ _ hk _ ih =>
    have hbodies : (g.stepOn v).bodies = [] := by
      unfold stepOn
      split <;> rfl
    rw [Element.partsOfBody_cons, hbodies]
    exact List.forall_mem_cons.2 ⟨hg.copied_stepOn hk, ih⟩
  | @choice v first stop path ids id bodies rest _ _ hk _ hbranches hkinds _ _ ihbodies ihrest =>
    rw [Element.partsOfBody_cons, List.forall_mem_cons, List.forall_mem_append]
    refine ⟨hg.copied_choiceOn id hk hbranches hkinds, ?_, ihrest⟩
    intro e he
    obtain ⟨body, hbody, he⟩ := List.mem_flatMap.1 he
    obtain ⟨b, hb, rfl⟩ := (hg.mem_bodiesOf hk hbranches hkinds).1 hbody
    exact ihbodies b hb e he
  | ends _ => exact List.forall_mem_nil _
  | follows _ _ ih => exact ih
  | @fork v first stop path id lanes rest _ _ _ _ ihlanes ihrest =>
    rw [Element.partsOfBody_cons, List.forall_mem_cons, List.forall_mem_append, Element.bodies, Element.map_body_lanes]
    refine ⟨trivial, ?_, ihrest⟩
    intro e he
    obtain ⟨body, hbody, he⟩ := List.mem_flatMap.1 he
    obtain ⟨l, hl, rfl⟩ := List.mem_map.1 hbody
    exact ihlanes l hl e he
  | apart _ => exact List.forall_mem_nil _
  | left _ _ _ => exact List.forall_mem_nil _
  | resumes _ _ _ ih => exact ih

end Copied

/-- A plan of a flow is copied from it. -/
theorem Compiler.copied_of_compile {c : Compiler} (hc : c.chain = []) {f : Flow} {route : Route} (h : c.compile f = .ok route) :
    ∀ e ∈ route.parts, e.Copied f.nodes := by
  obtain ⟨g, hg, hcompiled⟩ := IndexingAux.bind_ok h
  obtain ⟨entry, -, hunfolds⟩ := unfolds_of_compileGraph hc hcompiled
  exact hunfolds.copied (indexes_of_build hg)

/-! ## Flows that differ in parameters and conditions -/

/-- Flows that are the same when they are blanked have graphs that are, or are refused for the same reason. -/
theorem Compiler.index_of_blank (c : Compiler) {f f' : Flow} (h : f'.blank = f.blank) :
    (∃ e, c.index f = .error e ∧ c.index f' = .error e) ∨
      ∃ g g', c.index f = .ok g ∧ c.index f' = .ok g' ∧ g'.blank = g.blank := by
  obtain ⟨-, hnodes, hedges⟩ := Flow.mk.inj h
  have hbuild : (c.index f').map Graph.blank = (c.index f).map Graph.blank := by
    rw [index, index, ← Graph.build_blank, ← Graph.build_blank, hnodes, hedges]
  cases hf : c.index f with
  | error e =>
    cases hf' : c.index f' with
    | error e' =>
      rw [hf, hf'] at hbuild
      cases hbuild
      exact Or.inl ⟨e, rfl, rfl⟩
    | ok g' => rw [hf, hf'] at hbuild; cases hbuild
  | ok g =>
    cases hf' : c.index f' with
    | error e' => rw [hf, hf'] at hbuild; cases hbuild
    | ok g' =>
      rw [hf, hf'] at hbuild
      exact Or.inr ⟨g, g', rfl, rfl, Except.ok.inj hbuild⟩

/-- Parameters and the texts of conditions are copied and decide nothing. Of two flows that differ in nothing else, without
interceptors, with any catalog and any bound on the depth:
1. Both compilations end with the same error, or both with a plan.
2. The plans are the same when parameters and conditions are blanked.
3. Each step in them has the converted parameters of its own node, and each arm the condition of its own branch. -/
theorem compile_blanked {c : Compiler} (hc : c.chain = []) {f f' : Flow} (h : f'.blank = f.blank) :
    (∃ e, c.compile f = .error e ∧ c.compile f' = .error e) ∨
      ∃ route route', c.compile f = .ok route ∧ c.compile f' = .ok route' ∧ route'.blank = route.blank ∧
        (∀ e ∈ route.parts, e.Copied f.nodes) ∧ ∀ e ∈ route'.parts, e.Copied f'.nodes := by
  rcases c.index_of_blank h with ⟨e, hf, hf'⟩ | ⟨g, g', hf, hf', hblank⟩
  · refine Or.inl ⟨e, ?_, ?_⟩
    · rw [Compiler.compile, hf]
      rfl
    · rw [Compiler.compile, hf']
      rfl
  · obtain ⟨r, hshape, hentry⟩ := sameShape_of_blank hblank
    have hid : f'.id = f.id := (Flow.mk.inj h).1
    rw [Compiler.compile_of_index hf, Compiler.compile_of_index hf', hid]
    have hR := Setting.relates_blanked hshape (s := c.setting f.id g') (t := c.setting f.id g) hc hc
    rcases Compiler.compilation_of_sameShape hshape hentry hR rfl with herror | ⟨es', es, hroute, hroute', hes⟩
    · exact Or.inl herror
    · rw [hc] at hroute hroute'
      refine Or.inr ⟨⟨f.id, es⟩, ⟨f.id, es'⟩, hroute, hroute', congrArg (Route.mk f.id) hes, ?_, ?_⟩
      · exact Compiler.copied_of_compile hc ((Compiler.compile_of_index hf).trans hroute)
      · exact Compiler.copied_of_compile hc ((Compiler.compile_of_index hf').trans (hid ▸ hroute'))

/-- `Flow.approval` with other conditions, and with parameters that its nodes do not have there. -/
def Flow.approvalInEuros : Flow where
  id := "approval"
  nodes := [
    { id := "A", component := "script", parameters := .single "currencies" (.list [.text "EUR", .text "USD"]) },
    { id := "C", component := "choice", parameters := .single "strict" (.bool true),
      branches := [⟨"yes", some "euros < 90"⟩, ⟨"no", none⟩] },
    { id := "E", component := "choice", branches := [⟨"new", some ""⟩, ⟨"known", none⟩] },
    { id := "B", component := "script" },
    { id := "D", component := "script", parameters := .single "form" (.map (.ofList [("pages", .list []), ("kind", .null)])) }]
  edges := Flow.approval.edges

/-- Both approvals have plans, and these are the same when they are blanked. -/
theorem compile_blanked_approval : Flow.approvalInEuros.blank = Flow.approval.blank ∧
    ∃ route route', Compiler.compile {} Flow.approval = .ok route ∧ Compiler.compile {} Flow.approvalInEuros = .ok route' ∧
      route'.blank = route.blank ∧ (∀ e ∈ route.parts, e.Copied Flow.approval.nodes) ∧
        ∀ e ∈ route'.parts, e.Copied Flow.approvalInEuros.nodes := by
  obtain ⟨route, hr⟩ : ∃ route, Compiler.compile {} Flow.approval = .ok route := by
    decide +kernel
  have hblank : Flow.approvalInEuros.blank = Flow.approval.blank := rfl
  refine ⟨hblank, ?_⟩
  rcases compile_blanked (c := {}) rfl hblank with ⟨e, he, -⟩ | hroutes
  · rw [hr] at he
    cases he
  · exact hroutes

end FlowPlan
