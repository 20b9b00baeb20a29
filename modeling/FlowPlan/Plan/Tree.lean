import FlowPlan.Plan.Basic

/-!
# Plans as trees

`Route.tree` draws a plan with one line for each element and each branch. A line starts with a column for each level above it,
drawn where that level goes on below, and with a mark that tells the last of its siblings from the others. A body without
elements is drawn as a pass-through.
-/

namespace FlowPlan

/-- The mark of an item among its siblings. -/
def branchMark (last : Bool) : String :=
  if last then "└── " else "├── "

/-- The column under an item, for the lines below it. -/
def columnUnder (last : Bool) : String :=
  if last then "    " else "│   "

namespace Element

mutual

/-- The lines of an element, each starting with `indent`. -/
def tree (indent : String) (last : Bool) : Element → List String
  | .sequential node =>
    [indent ++ branchMark last ++ "Sequential: " ++ node.id ++ " (" ++ node.component ++ ")"]
  | .leaf node =>
    [indent ++ branchMark last ++ "Leaf: " ++ node.id ++ " (" ++ node.component ++ ")"]
  | .choice id node arms otherwise =>
    let inner := indent ++ columnUnder last
    (indent ++ branchMark last ++ "Choice: " ++ id ++ " [" ++ node.id ++ "]")
      :: (treeOfArms inner otherwise.isNone arms ++ treeOfOtherwise inner otherwise)
  | .parallel id lanes =>
    (indent ++ branchMark last ++ "Parallel: " ++ id) :: treeOfLanes (indent ++ columnUnder last) lanes

/-- The lines of a body; a body without elements is a pass-through. -/
def treeOfBody (indent : String) : List Element → List String
  | [] => [indent ++ "└── <pass-through>"]
  | element :: rest => tree indent rest.isEmpty element ++ treeOfRest indent rest

/-- The lines of the elements after the first, the last of which is the last of its siblings. -/
def treeOfRest (indent : String) : List Element → List String
  | [] => []
  | element :: rest => tree indent rest.isEmpty element ++ treeOfRest indent rest

/-- The lines of the arms; when `last`, nothing follows them. -/
def treeOfArms (indent : String) (last : Bool) : List (Arm Element) → List String
  | [] => []
  | ⟨id, condition, body⟩ :: rest =>
    let isLast := last && rest.isEmpty
    (indent ++ branchMark isLast ++ "When " ++ id ++ " (" ++ condition ++ ")")
      :: (treeOfBody (indent ++ columnUnder isLast) body ++ treeOfArms indent last rest)

def treeOfLanes (indent : String) : List (Lane Element) → List String
  | [] => []
  | ⟨id, body⟩ :: rest =>
    let isLast := rest.isEmpty
    (indent ++ branchMark isLast ++ "Branch " ++ id)
      :: (treeOfBody (indent ++ columnUnder isLast) body ++ treeOfLanes indent rest)

def treeOfOtherwise (indent : String) : Option (List Element) → List String
  | none => []
  | some body =>
    (indent ++ branchMark true ++ "Otherwise") :: treeOfBody (indent ++ columnUnder true) body

end

end Element

namespace Route

/-- The lines of a plan: its flow, then its elements. -/
def treeLines (r : Route) : List String :=
  ("Route: " ++ r.flowId) :: Element.treeOfBody "" r.steps

/-- A plan as a tree; every line ends with a line feed. -/
def tree (r : Route) : String :=
  String.join (r.treeLines.map (· ++ "\n"))

end Route

end FlowPlan
