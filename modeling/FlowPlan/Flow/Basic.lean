import FlowPlan.Json.Basic

/-!
# Flows

A `Flow` is a graph as its author draws it: nodes that name a component, and edges between them. A node whose component is
conditional has branches, each with a condition or, for the "otherwise" branch, without one.
-/

namespace FlowPlan

namespace Flow

/-- A branch of a conditional node; without a condition it is the "otherwise" branch. -/
structure Branch where
  id : String
  condition : Option String
  deriving DecidableEq, Repr, Inhabited

/-- A node of a flow. Its branches stand in the order in which they are tried. -/
structure Node where
  id : String
  component : String
  parameters : Dict Json := ∅
  branches : List Branch := []
  deriving Repr, Inhabited

/-- A directed connection. An edge that leaves a conditional node may name the branch by which it does. -/
structure Edge where
  source : String
  branch : Option String := none
  target : String
  deriving DecidableEq, Repr, Inhabited

end Flow

/-- A flow. Ids made while it is compiled carry its own id in front. -/
structure Flow where
  id : String
  nodes : List Flow.Node
  edges : List Flow.Edge
  deriving Repr, Inhabited

end FlowPlan
