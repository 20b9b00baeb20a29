import FlowPlan.Plan.Value

/-!
# Plans

A plan is a sequence of elements that an engine runs one after the other. An element is a step, a choice between bodies, or a
set of bodies that run side by side; a body is a sequence again. A `Route` is the plan of a whole flow.
-/

namespace FlowPlan

/-- A node of a flow as it stands in a plan. -/
structure Step where
  id : String
  component : String
  parameters : Dict Value := ∅
  deriving Repr, Inhabited

/-- A branch of a choice: its condition, and what runs under it. -/
structure Arm (α : Type) where
  id : String
  condition : String
  body : List α
  deriving Repr

/-- A branch of a parallel element. -/
structure Lane (α : Type) where
  id : String
  body : List α
  deriving Repr

/-- An element of a plan. -/
inductive Element
  /-- a step that something follows -/
  | sequential (node : Step)
  /-- a step on a node without successors -/
  | leaf (node : Step)
  /-- the arms of a conditional node in order, and the body that runs when none applies -/
  | choice (id : String) (node : Step) (arms : List (Arm Element)) (otherwise : Option (List Element))
  /-- bodies that run side by side -/
  | parallel (id : String) (lanes : List (Lane Element))
  deriving Repr, Inhabited

/-- The plan of a flow. -/
structure Route where
  flowId : String
  steps : List Element
  deriving Repr, Inhabited

namespace Element

/-- The id of the node of a step, or the generated id of a choice or parallel element. -/
def id : Element → String
  | .sequential node => node.id
  | .leaf node => node.id
  | .choice id .. => id
  | .parallel id _ => id

mutual

/-- The flow nodes of an element in plan order; a conditional node comes before its bodies. -/
def nodes : Element → List Step
  | .sequential node => [node]
  | .leaf node => [node]
  | .choice _ node arms otherwise => node :: (nodesOfArms arms ++ nodesOfOtherwise otherwise)
  | .parallel _ lanes => nodesOfLanes lanes

def nodesOfBody : List Element → List Step
  | [] => []
  | element :: rest => nodes element ++ nodesOfBody rest

def nodesOfArms : List (Arm Element) → List Step
  | [] => []
  | ⟨_, _, body⟩ :: rest => nodesOfBody body ++ nodesOfArms rest

def nodesOfLanes : List (Lane Element) → List Step
  | [] => []
  | ⟨_, body⟩ :: rest => nodesOfBody body ++ nodesOfLanes rest

def nodesOfOtherwise : Option (List Element) → List Step
  | none => []
  | some body => nodesOfBody body

end

mutual

/-- An element on one line. -/
def chain : Element → String
  | .sequential node => "Sequential(" ++ node.id ++ ")"
  | .leaf node => "Leaf(" ++ node.id ++ ")"
  | .choice _ _ arms otherwise =>
    "Choice(" ++ String.intercalate ", " (chainOfArms arms ++ chainOfOtherwise otherwise) ++ ")"
  | .parallel _ lanes => "Parallel(" ++ String.intercalate ", " (chainOfLanes lanes) ++ ")"

def chainOfBody : List Element → List String
  | [] => []
  | element :: rest => chain element :: chainOfBody rest

def chainOfArms : List (Arm Element) → List String
  | [] => []
  | ⟨_, condition, body⟩ :: rest =>
    ("when " ++ condition ++ ": [" ++ String.intercalate " -> " (chainOfBody body) ++ "]") :: chainOfArms rest

def chainOfLanes : List (Lane Element) → List String
  | [] => []
  | ⟨_, body⟩ :: rest => ("[" ++ String.intercalate " -> " (chainOfBody body) ++ "]") :: chainOfLanes rest

def chainOfOtherwise : Option (List Element) → List String
  | none => []
  | some body => ["otherwise: [" ++ String.intercalate " -> " (chainOfBody body) ++ "]"]

end

end Element

namespace Step

/-- Steps are equal when their parameters are equal as values. -/
def equal (s t : Step) : Bool :=
  s.id == t.id && s.component == t.component && Value.equalDict s.parameters t.parameters

end Step

namespace Element

mutual

/-- Elements are equal when they have the same shape and texts, and equal steps. -/
def equal : Element → Element → Bool
  | .sequential s, .sequential t => s.equal t
  | .leaf s, .leaf t => s.equal t
  | .choice i s arms o, .choice j t arms' o' =>
    i == j && s.equal t && equalArms arms arms' && equalOtherwise o o'
  | .parallel i lanes, .parallel j lanes' => i == j && equalLanes lanes lanes'
  | _, _ => false

def equalBody : List Element → List Element → Bool
  | [], [] => true
  | x :: xs, y :: ys => equal x y && equalBody xs ys
  | _, _ => false

def equalArms : List (Arm Element) → List (Arm Element) → Bool
  | [], [] => true
  | ⟨i, c, body⟩ :: xs, ⟨j, d, body'⟩ :: ys => i == j && c == d && equalBody body body' && equalArms xs ys
  | _, _ => false

def equalLanes : List (Lane Element) → List (Lane Element) → Bool
  | [], [] => true
  | ⟨i, body⟩ :: xs, ⟨j, body'⟩ :: ys => i == j && equalBody body body' && equalLanes xs ys
  | _, _ => false

def equalOtherwise : Option (List Element) → Option (List Element) → Bool
  | none, none => true
  | some body, some body' => equalBody body body'
  | _, _ => false

end

end Element

namespace Route

/-- The flow nodes of a plan, in plan order. -/
def nodes (r : Route) : List Step :=
  Element.nodesOfBody r.steps

/-- The ids of the flow nodes of a plan, in plan order. -/
def nodeIds (r : Route) : List String :=
  r.nodes.map Step.id

/-- A plan on one line. -/
def chain (r : Route) : String :=
  String.intercalate " -> " (Element.chainOfBody r.steps)

/-- The parameters of each flow node on a line, in plan order. -/
def parameterLines (r : Route) : List String :=
  r.nodes.map fun node => node.id ++ " " ++ (Value.map node.parameters).display

def equal (r s : Route) : Bool :=
  r.flowId == s.flowId && Element.equalBody r.steps s.steps

end Route

end FlowPlan
