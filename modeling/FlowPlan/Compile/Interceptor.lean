import FlowPlan.Plan.Basic

/-!
# Interceptors

An `Interceptor` may replace every element of a plan as it is finished, and the whole plan at the end. Interceptors stand in a
chain by ascending priority; among equal priorities the one that was added first comes first. Each one receives what the one
before it returned.
-/

namespace FlowPlan

/-- A hook on the elements and on the whole of a plan. Both functions get the id of the flow that is compiled. -/
structure Interceptor where
  /-- how records of calls refer to it; calls of an unnamed one are not recorded -/
  name : Option String := none
  priority : Int := 0
  onStep : (flowId : String) → Element → Element := fun _ element => element
  onRoute : (flowId : String) → Route → Route := fun _ route => route

/-- Interceptors in the order in which they run. -/
abbrev Chain := List Interceptor

/-- The point up to which `holds` holds in a list, searched from `low` on among the next `size` items. The search halves these until
one is left, and finds the point when `holds` holds of all items in front of it and of none behind. -/
def partitionPoint {α : Type} (holds : α → Bool) (l : List α) (low size : Nat) : Nat :=
  if size ≤ 1 then if l[low]?.any holds then low + 1 else low
  else
    let half := size / 2
    if l[low + half]?.any holds then partitionPoint holds l (low + half) (size - half)
    else partitionPoint holds l low (size - half)
termination_by size

namespace Chain

/-- Adds an interceptor behind all whose priority is not above its own. -/
def push (chain : Chain) (added : Interceptor) : Chain :=
  chain.insertIdx (partitionPoint (·.priority ≤ added.priority) chain 0 chain.length) added

/-- The chain of interceptors added in order. -/
def ofList (added : List Interceptor) : Chain :=
  added.foldl push []

def onStep (chain : Chain) (flowId : String) (element : Element) : Element :=
  chain.foldl (fun element i => i.onStep flowId element) element

def onRoute (chain : Chain) (flowId : String) (route : Route) : Route :=
  chain.foldl (fun route i => i.onRoute flowId route) route

/-- A line for each call of a named interceptor, with the element that it receives. -/
def stepCalls (flowId : String) : Chain → Element → List String
  | [], _ => []
  | i :: rest, element =>
    (i.name.map fun name => name ++ " step " ++ flowId ++ " " ++ element.chain).toList
      ++ stepCalls flowId rest (i.onStep flowId element)

/-- A line for each call of a named interceptor, with the plan that it receives. -/
def routeCalls (flowId : String) : Chain → Route → List String
  | [], _ => []
  | i :: rest, route =>
    (i.name.map fun name => name ++ " route " ++ flowId ++ " " ++ route.chain).toList
      ++ routeCalls flowId rest (i.onRoute flowId route)

end Chain

end FlowPlan
