import FlowPlan.Compile.Hooks
import FlowPlan.Proofs.Compile.Simulation
import FlowPlan.Proofs.Compile.Soundness

/-!
# What interceptors do to a plan

Interceptors replace the elements of a plan from the inside out (`Element.mapped`) and decide nothing else: with them or without
them a compilation counts, names and unfolds alike. Each element of the plan without interceptors goes to them once, a choice or
parallel element after its bodies, whose elements are replaced by then (`Finishes`).

The proof runs two compilations side by side, one with interceptors and one without (`Setting.relates_intercepted`). The graph of
the one may be that of the other with other numbers, so this is also why numbers do not matter.
-/

namespace FlowPlan

open FlowPlan.Graph

/-! ## Elements from the inside out -/

namespace Element

mutual

/-- An element after `f` has replaced every element of its bodies, and the element itself in the end. -/
def mapped (f : Element → Element) : Element → Element
  | .sequential node => f (.sequential node)
  | .leaf node => f (.leaf node)
  | .choice id node arms otherwise => f (.choice id node (mappedArms f arms) (mappedOtherwise f otherwise))
  | .parallel id lanes => f (.parallel id (mappedLanes f lanes))

def mappedBody (f : Element → Element) : List Element → List Element
  | [] => []
  | element :: rest => mapped f element :: mappedBody f rest

def mappedArms (f : Element → Element) : List (Arm Element) → List (Arm Element)
  | [] => []
  | ⟨id, condition, body⟩ :: rest => ⟨id, condition, mappedBody f body⟩ :: mappedArms f rest

def mappedLanes (f : Element → Element) : List (Lane Element) → List (Lane Element)
  | [] => []
  | ⟨id, body⟩ :: rest => ⟨id, mappedBody f body⟩ :: mappedLanes f rest

def mappedOtherwise (f : Element → Element) : Option (List Element) → Option (List Element)
  | none => none
  | some body => some (mappedBody f body)

end

/-- An element after `f` has replaced every element of its bodies. -/
def refilled (f : Element → Element) : Element → Element
  | .sequential node => .sequential node
  | .leaf node => .leaf node
  | .choice id node arms otherwise => .choice id node (mappedArms f arms) (mappedOtherwise f otherwise)
  | .parallel id lanes => .parallel id (mappedLanes f lanes)

variable (f : Element → Element)

/-- An element is replaced when its bodies are done. -/
theorem mapped_eq (e : Element) : mapped f e = f (refilled f e) := by
  cases e with
  | sequential node => rw [mapped, refilled]
  | leaf node => rw [mapped, refilled]
  | choice id node arms otherwise => rw [mapped, refilled]
  | parallel id lanes => rw [mapped, refilled]

/-- Elements are replaced one by one. -/
theorem mappedBody_append (es ds : List Element) : mappedBody f (es ++ ds) = mappedBody f es ++ mappedBody f ds := by
  induction es with
  | nil => rfl
  | cons e rest ih => rw [List.cons_append, mappedBody, mappedBody, ih, List.cons_append]

/-- The bodies of a choice with every element replaced, before they are told apart. -/
def mappedBodies (bodies : List (String × Option String × List Element)) : List (String × Option String × List Element) :=
  bodies.map fun (id, condition, body) => (id, condition, mappedBody f body)

/-- Arms keep their ids and conditions when their bodies are replaced. -/
theorem armsOf_mappedBodies (bodies : List (String × Option String × List Element)) :
    Setting.armsOf (mappedBodies f bodies) = mappedArms f (Setting.armsOf bodies) := by
  induction bodies with
  | nil => rfl
  | cons b rest ih =>
    obtain ⟨id, condition, body⟩ := b
    cases condition with
    | none => exact ih
    | some c => exact congrArg (_ :: ·) ih

/-- The otherwise branch is the same one when bodies are replaced. -/
theorem otherwiseOf_mappedBodies (bodies : List (String × Option String × List Element)) :
    Setting.otherwiseOf (mappedBodies f bodies) = mappedOtherwise f (Setting.otherwiseOf bodies) := by
  have hmap : ∀ o, mappedOtherwise f o = o.map (mappedBody f) := by
    intro o
    cases o <;> rfl
  rw [Setting.otherwiseOf_eq, Setting.otherwiseOf_eq, hmap, mappedBodies, List.filter_map, List.map_map, ← List.getLast?_map,
    List.map_map]
  rfl

end Element

mutual

/-- What goes to the interceptors for a sequence, in order, when `f` is what they do to an element: each of its elements as it is
when its bodies are done, a choice or parallel element after what goes for its bodies. -/
inductive Finishes (f : Element → Element) : List Element → List Element → Prop
  | nil : Finishes f [] []
  | sequential {node rest after} : Finishes f rest after → Finishes f (.sequential node :: rest) (.sequential node :: after)
  | leaf {node rest after} : Finishes f rest after → Finishes f (.leaf node :: rest) (.leaf node :: after)
  /-- the body without a condition may be done between two others -/
  | choice {id node arms otherwise rest bodies inside after} : (Element.bodiesOf arms otherwise).Perm bodies →
      FinishesAll f bodies inside → Finishes f rest after →
      Finishes f (.choice id node arms otherwise :: rest)
        (inside ++ Element.refilled f (.choice id node arms otherwise) :: after)
  | parallel {id lanes rest inside after} : FinishesAll f (lanes.map (·.body)) inside → Finishes f rest after →
      Finishes f (.parallel id lanes :: rest) (inside ++ Element.refilled f (.parallel id lanes) :: after)

/-- What goes to the interceptors for bodies one after the other. -/
inductive FinishesAll (f : Element → Element) : List (List Element) → List Element → Prop
  | nil : FinishesAll f [] []
  | cons {body rest inside after} : Finishes f body inside → FinishesAll f rest after →
      FinishesAll f (body :: rest) (inside ++ after)

end

/-- A sequence with interceptors against one without: its elements are replaced, and these went to the interceptors. -/
structure Intercepted (f : Element → Element) (submitted es' es : List Element) : Prop where
  result : es' = Element.mappedBody f es
  finishes : Finishes f es submitted

section Sequences

variable {f : Element → Element} {l m es es' ds ds' : List Element}

/-- Of nothing, nothing goes to the interceptors. -/
theorem intercepted_nil : Intercepted f [] [] [] :=
  ⟨rfl, .nil⟩

/-- Calls for two sequences follow one another. -/
theorem Finishes.append (h' : Finishes f ds m) : ∀ {es l}, Finishes f es l → Finishes f (es ++ ds) (l ++ m)
  | _, _, .nil => h'
  | _, _, .sequential h => .sequential (h'.append h)
  | _, _, .leaf h => .leaf (h'.append h)
  | _, _, .choice hperm hbodies h => by
    rw [List.append_assoc]
    exact .choice hperm hbodies (h'.append h)
  | _, _, .parallel hbodies h => by
    rw [List.append_assoc]
    exact .parallel hbodies (h'.append h)

theorem Intercepted.append (h : Intercepted f l es' es) (h' : Intercepted f m ds' ds) :
    Intercepted f (l ++ m) (es' ++ ds') (es ++ ds) :=
  ⟨by rw [h.result, h'.result, Element.mappedBody_append], h'.finishes.append h.finishes⟩

/-- An element that is done, with what goes to the interceptors for its bodies. -/
theorem intercepted_single {e : Element} (h : Finishes f [e] (l ++ [Element.refilled f e])) :
    Intercepted f (l ++ [Element.refilled f e]) [f (Element.refilled f e)] [e] :=
  ⟨by rw [Element.mappedBody, Element.mappedBody, Element.mapped_eq], h⟩

end Sequences

/-! ## Plans side by side -/

namespace Setting

variable {catalog : NodeCatalog} {nodes : List Flow.Node} {edges : List Flow.Edge} {g g' : Graph} {r : Fin g.size ≃ Fin g'.size}
  {f : Element → Element}

section Related

variable (h : Renumbers g g' r)

include h

/-- A step does not depend on how nodes are numbered. -/
theorem stepOn_renumbered (v : Fin g.size) : g'.stepOn (r v) = g.stepOn v := by
  have hsuccessors : (g'.successorsAt (r v)).isEmpty = (g.successorsAt v).isEmpty := by
    rw [h.successors, List.isEmpty_map]
  rw [Graph.stepOn, Graph.stepOn, hsuccessors, h.node]

/-- The bodies of a choice, one by one. -/
theorem armsRelated_intercepted {l : List Element} {bodies' : List (ArmBody g'.size)} {bodies : List (ArmBody g.size)}
    (hbodies : ArmsRelated (Intercepted f) r l bodies' bodies) :
    bodies'.map (ArmBody.named g') = Element.mappedBodies f (bodies.map (ArmBody.named g)) ∧
      (∀ b ∈ bodies, ∃ parent, (g.node b.branch).kind = .branch parent b.condition) ∧
        FinishesAll f (bodies.map ArmBody.body) l := by
  induction hbodies with
  | nil => exact ⟨rfl, nofun, .nil⟩
  | @cons branch parent condition' condition l body' body m bodies' bodies hk' hk hc hbody _ ih =>
    obtain ⟨hnamed, hkinds, hfinishes⟩ := ih
    rw [h.node, hk] at hk'
    obtain ⟨-, rfl⟩ := Kind.branch.inj hk'
    refine ⟨?_, List.forall_mem_cons.2 ⟨⟨parent, hk⟩, hkinds⟩, .cons hbody.finishes hfinishes⟩
    rw [List.map_cons, hnamed, ArmBody.named, hbody.result, idAt, h.node]
    rfl

omit h in
/-- The bodies of a parallel element, one by one. -/
theorem lanesRelated_intercepted {l : List Element} {lanes' : List (LaneBody g'.size)} {lanes : List (LaneBody g.size)}
    (hlanes : LanesRelated (Intercepted f) r l lanes' lanes) (id : String) (index : Nat) :
    LaneBody.lanes id index lanes' = Element.mappedLanes f (LaneBody.lanes id index lanes) ∧
      FinishesAll f (lanes.map LaneBody.body) l := by
  induction hlanes generalizing index with
  | nil => exact ⟨rfl, .nil⟩
  | cons hbody _ ih =>
    obtain ⟨hmapped, hfinishes⟩ := ih (index + 1)
    refine ⟨?_, .cons hbody.finishes hfinishes⟩
    rw [LaneBody.lanes, LaneBody.lanes, Element.mappedLanes, hmapped, hbody.result]

/-- A plan with interceptors against one without goes along with putting both together. -/
theorem relates_intercepted (hg : Indexes catalog nodes edges g) {s : Setting g'} {t : Setting g} (ht : t.chain = []) :
    Relates (Intercepted s.hook) r s t where
  nil := intercepted_nil
  append := Intercepted.append
  step v := by
    rw [stepOn_renumbered h, hook_eq_self ht]
    unfold Graph.stepOn
    split
    · exact intercepted_single (l := []) (.leaf .nil)
    · exact intercepted_single (l := []) (.sequential .nil)
  choice := by
    intro id v l bodies' bodies hbranches hbodies
    obtain ⟨hnamed, hkinds, hfinishes⟩ := armsRelated_intercepted h hbodies
    have hrefilled : g'.choiceOn id (r v) bodies' = Element.refilled s.hook (g.choiceOn id v bodies) := by
      rw [Graph.choiceOn, hnamed, Element.armsOf_mappedBodies, Element.otherwiseOf_mappedBodies, h.node]
      rfl
    have hperm := bodies_perm (hg.length_unconditional_of_kinds hbranches hkinds)
    rw [List.map_map] at hperm
    rw [hrefilled, hook_eq_self ht]
    exact intercepted_single (.choice hperm hfinishes .nil)
  parallel := by
    intro id l lanes' lanes hlanes
    obtain ⟨hmapped, hfinishes⟩ := lanesRelated_intercepted hlanes id 0
    have hbodies : (LaneBody.lanes id 0 lanes).map (·.body) = lanes.map LaneBody.body := Element.map_body_lanes
    rw [← hbodies] at hfinishes
    rw [hmapped, hook_eq_self ht]
    exact intercepted_single (.parallel hfinishes .nil)

end Related

end Setting

/-! ## Compilations with interceptors -/

namespace Compiler

/-- A compiler without its interceptors. -/
def plain (c : Compiler) : Compiler :=
  { c with chain := [] }

/-- With interceptors, a compilation gives what it gives without them for a graph that differs in its numbers at most, replaced. -/
theorem compilation_of_renumbers {catalog : NodeCatalog} {nodes : List Flow.Node} {edges : List Flow.Edge} {g g' : Graph}
    {r : Fin g.size ≃ Fin g'.size} (hg : Indexes catalog nodes edges g) (h : Renumbers g g' r)
    (hentry : g'.entry = g.entry.map r) (c : Compiler) (flowId : String) :
    (∃ e, c.plain.compileGraph flowId g = .error e ∧ c.compileGraph flowId g' = .error e) ∨
      ∃ steps, c.plain.compileGraph flowId g = .ok ⟨flowId, steps⟩ ∧
        c.compileGraph flowId g' = .ok (c.chain.onRoute flowId ⟨flowId, Element.mappedBody (c.chain.onStep flowId) steps⟩) ∧
          Finishes (c.chain.onStep flowId) steps (Event.submissions (c.compilation flowId g').events) := by
  have hR := Setting.relates_intercepted h hg (s := c.setting flowId g') (t := c.plain.setting flowId g) rfl
  rcases Compiler.compilation_of_sameShape h.sameShape hentry hR rfl with herror | ⟨es', es, hplain, hroute, hes⟩
  · exact Or.inl herror
  · refine Or.inr ⟨es, hplain, ?_, hes.finishes⟩
    rw [hroute, hes.result]
    rfl

end Compiler

/-- Interceptors replace the elements of the plan without them, from the inside out, and the whole plan in the end, and decide
nothing else: there is an error exactly when there is one without them, and then the same; otherwise each element goes to them once,
as it is when its bodies are done, and a choice or parallel element after its bodies. This holds of every graph, with loops or
without. -/
theorem compileGraph_intercepted {catalog : NodeCatalog} {nodes : List Flow.Node} {edges : List Flow.Edge} {g : Graph}
    (hg : Graph.build catalog nodes edges = .ok g) (c : Compiler) (flowId : String) :
    (∀ e, c.compileGraph flowId g = .error e ↔ c.plain.compileGraph flowId g = .error e) ∧
      ∀ route, c.plain.compileGraph flowId g = .ok route → route.flowId = flowId ∧
        c.compileGraph flowId g =
          .ok (c.chain.onRoute flowId ⟨flowId, Element.mappedBody (c.chain.onStep flowId) route.steps⟩) ∧
        Finishes (c.chain.onStep flowId) route.steps (Event.submissions (c.compilation flowId g).events) := by
  rcases c.compilation_of_renumbers (indexes_of_build hg) (.refl g) (Renumbers.entry_refl g) flowId with
    ⟨e, hplain, he⟩ | ⟨steps, hplain, hroute, hfinishes⟩
  · rw [hplain, he]
    exact ⟨fun _ => Iff.rfl, nofun⟩
  · rw [hplain, hroute]
    refine ⟨fun e => ⟨nofun, nofun⟩, ?_⟩
    rintro _ ⟨⟩
    exact ⟨rfl, rfl, hfinishes⟩

/-- `Flow.approval` with interceptors that wrap every step, rename every element and add one at the end. -/
theorem compileGraph_intercepted_approval : ∃ (g : Graph) (route : Route) (chain : Chain),
    Graph.build .standard Flow.approval.nodes Flow.approval.edges = .ok g ∧
      Compiler.compileGraph {} "approval" g = .ok route ∧ chain = [.wrap "w" 0, .rename "r" 1, .audit "a" 2] ∧
        Compiler.compileGraph { chain := chain } "approval" g =
            .ok (chain.onRoute "approval" ⟨"approval", Element.mappedBody (chain.onStep "approval") route.steps⟩) ∧
          Finishes (chain.onStep "approval") route.steps
            (Event.submissions (Compiler.compilation { chain := chain } "approval" g).events) := by
  obtain ⟨g, hg, route, hr⟩ : ∃ g, Graph.build .standard Flow.approval.nodes Flow.approval.edges = .ok g ∧
      ∃ route, Compiler.compileGraph {} "approval" g = .ok route := by
    decide +kernel
  refine ⟨g, route, _, hg, hr, rfl, ?_⟩
  exact ((compileGraph_intercepted hg { chain := [.wrap "w" 0, .rename "r" 1, .audit "a" 2] } "approval").2 route hr).2

end FlowPlan
