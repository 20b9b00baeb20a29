import FlowPlan.Compile.Interceptor
import FlowPlan.Compile.Progress
import FlowPlan.Graph.Pairing
import FlowPlan.Graph.Run

/-!
# Unfolding a graph into a plan

A plan unfolds the graph from its entry. A straight run becomes steps; a conditional node becomes a choice, a fan-out a parallel
element. Their bodies stop before the merge node that the branch start is paired with, and the flow behind the merge node
continues after the element. When several branch starts share a merge node, only the outermost open one continues there. A
link back to a node on the path ends its sequence.

`unfold` is recursive in the depth that is left. Two more things bound it: no node is entered twice on a path, and every
element counts against the limit of the plan.
-/

namespace FlowPlan

open FlowPlan.Graph

/-- What a compilation unfolds and under which limits. -/
structure Setting (g : Graph) where
  flowId : String
  chain : Chain
  maxDepth : Nat
  /-- the pairing of the graph, computed once -/
  pairing : Pairing g.size := g.pairing
  pairing_eq : pairing = g.pairing := by rfl

/-- A part of a plan that is unfolded one level deeper. -/
inductive Segment (n : Nat)
  /-- what follows a node that has been emitted -/
  | after (v : Fin n)
  /-- the choice on a conditional node, and what continues it -/
  | choice (v : Fin n)
  /-- the parallel element on a fan-out, and what continues it -/
  | fork (v : Fin n)
  deriving DecidableEq, Repr

/-- The node that a segment is unfolded at. -/
def Segment.node {n : Nat} : Segment n → Fin n
  | .after v => v
  | .choice v => v
  | .fork v => v

/-- Where in the plan a segment stands. -/
structure Scope (n : Nat) where
  /-- the nodes on the way from the entry, the latest one first -/
  path : List (Fin n) := []
  /-- the branch starts that are open, the outermost one first -/
  opened : List (Fin n) := []
  deriving DecidableEq, Repr

namespace Scope

variable {n : Nat}

def enter (s : Scope n) (v : Fin n) : Scope n :=
  { s with path := v :: s.path }

/-- Enters nodes in order. -/
def enterAll (s : Scope n) (vs : List (Fin n)) : Scope n :=
  { s with path := vs.reverse ++ s.path }

def openAt (s : Scope n) (v : Fin n) : Scope n :=
  { s with opened := s.opened ++ [v] }

end Scope

/-- How the segments one level deeper are unfolded: up to the node to stop before, if there is one. -/
abbrev Unfolder (g : Graph) := Segment g.size → (stop : Option (Fin g.size)) → Scope g.size → Build (List Element)

namespace Setting

variable {g : Graph} (s : Setting g)

/-- The most elements that a plan of this graph may have. -/
def limit : Nat :=
  min (g.size * max s.maxDepth 1) (Nat.pow 2 64 - 1)

/-- A new id for a choice or parallel element. -/
def freshId (kind : String) : Build String := do
  let number ← Build.nextNumber
  return s.flowId ++ "-" ++ kind ++ "-" ++ toString number

/-- Counts an element on a node. -/
def count (v : Fin g.size) : Build Unit :=
  Build.count s.limit (g.idAt v)

/-- Hands a finished element to the interceptors. -/
def submit (element : Element) : Build Element := do
  Build.tell (.submitted element)
  return s.chain.onStep s.flowId element

/-- The step on a plain node: a leaf when the node has no successor. -/
def step (v : Fin g.size) : Build Element := do
  s.count v
  let node := (g.node v).toStep
  s.submit (if (g.successorsAt v).isEmpty then .leaf node else .sequential node)

/-- The steps on plain nodes in order. -/
def steps : List (Fin g.size) → Build (List Element)
  | [] => return []
  | v :: rest => do
    let first ← s.step v
    let others ← steps rest
    return first :: others

/-- The error of a node that cannot stand where it is met. -/
def unsupported (v : Fin g.size) (obstacle : Obstacle) : CompileError :=
  .unsupportedShape (g.idAt v) obstacle

/-- Unfolds from a node that has not been emitted; `stray` is what a branch of a conditional node is refused for. -/
def unfoldFrom (deeper : Unfolder g) (stray : String → Obstacle) (stop : Option (Fin g.size)) (scope : Scope g.size)
    (v : Fin g.size) : Build (List Element) :=
  match (g.node v).kind with
  | .plain => do
    let first ← s.step v
    let rest ← deeper (.after v) stop (scope.enter v)
    return first :: rest
  | .conditional _ => deeper (.choice v) stop scope
  | .branch parent _ => throw (unsupported v (stray parent))
  | .unrecognized => throw (unsupported v (.unrecognized (g.node v).component))

/-- What follows a node up to the end of the flow or the node to stop before. -/
def sequence (deeper : Unfolder g) (v : Fin g.size) (stop : Option (Fin g.size)) (scope : Scope g.size) :
    Build (List Element) := do
  let (run, ending) := g.run stop scope.path v
  let first ← s.steps run
  let scope := scope.enterAll run
  let rest ← match ending with
    | .done => pure []
    | .fork start => deeper (.fork start) stop scope
    | .loop source target =>
      Build.tell (.loopEndsSequence (g.idAt source) (g.idAt target))
      pure []
    | .conditional next => deeper (.choice next) stop scope
    | .stray next parent => throw (unsupported next (.strayBranch parent))
    | .unrecognized next => throw (unsupported next (.unrecognized (g.node next).component))
  return first ++ rest

/-- What follows a choice or parallel element: the flow from its merge node on, unless that is left to another element. -/
def continuation (deeper : Unfolder g) (start : Fin g.size) (stop : Option (Fin g.size)) (scope : Scope g.size) :
    Build (List Element) :=
  match s.pairing.mergeOf.get start with
  | none => return []
  | some merge =>
    let sharers := s.pairing.startsOf.get merge
    if 1 < sharers.length && scope.opened.head? != some start then do
      Build.tell (.mergeLeftToOutermost (g.idAt merge) (sharers.map g.idAt) (g.idAt start))
      return []
    else if stop = some merge then return []
    else if scope.path.contains merge then do
      Build.tell (.loopEndsContinuation (g.idAt merge))
      return []
    else s.unfoldFrom deeper (fun _ => .mergeIsBranch) stop scope merge

/-- Opens a choice or parallel element on a node and gives its id. -/
def announce (kind : String) (v : Fin g.size) : Build String := do
  let id ← s.freshId kind
  Build.tell (.opened kind id (g.idAt v) (g.successorsAt v).length ((s.pairing.mergeOf.get v).map g.idAt))
  return id

/-- The bodies of a choice, in the order of the branches: each with its branch and its condition. -/
def armBodies (deeper : Unfolder g) (conditional : Fin g.size) (scope : Scope g.size) :
    List (Fin g.size) → Build (List (String × Option String × List Element))
  | [] => return []
  | branch :: rest =>
    match (g.node branch).kind with
    | .branch _ condition => do
      let body ← deeper (.after branch) (s.pairing.mergeOf.get conditional) scope
      let others ← armBodies deeper conditional scope rest
      return (g.idAt branch, condition, body) :: others
    | _ => throw (unsupported conditional (.foreignSuccessor (g.idAt branch)))

/-- The arms among the bodies of a choice. -/
def armsOf (bodies : List (String × Option String × List Element)) : List (Arm Element) :=
  bodies.filterMap fun (id, condition, body) => condition.map fun c => ⟨id, c, body⟩

/-- The body of a choice that has no condition. -/
def otherwiseOf (bodies : List (String × Option String × List Element)) : Option (List Element) :=
  (bodies.filterMap fun (_, condition, body) => if condition.isNone then some body else none).getLast?

/-- The choice on a conditional node, and what continues it. -/
def choice (deeper : Unfolder g) (v : Fin g.size) (stop : Option (Fin g.size)) (scope : Scope g.size) :
    Build (List Element) := do
  let inner := (scope.openAt v).enter v
  let id ← s.announce "choice" v
  let bodies ← s.armBodies deeper v inner (g.successorsAt v)
  s.count v
  let element ← s.submit (.choice id (g.node v).toStep (armsOf bodies) (otherwiseOf bodies))
  let rest ← s.continuation deeper v stop inner
  return element :: rest

/-- The body of a lane. A lane that leads straight to the merge node passes through. -/
def laneBody (deeper : Unfolder g) (start : Fin g.size) (scope : Scope g.size) (v : Fin g.size) :
    Build (List Element) :=
  let merge := s.pairing.mergeOf.get start
  if merge = some v then return []
  else if scope.path.contains v then do
    Build.tell (.loopEmptiesBranch (g.idAt v))
    return []
  else s.unfoldFrom deeper .strayBranch merge scope v

/-- The lanes of a parallel element from the given index on. -/
def lanes (deeper : Unfolder g) (id : String) (start : Fin g.size) (scope : Scope g.size) :
    (index : Nat) → List (Fin g.size) → Build (List (Lane Element))
  | _, [] => return []
  | index, v :: rest => do
    let body ← s.laneBody deeper start scope v
    let others ← lanes deeper id start scope (index + 1) rest
    return ⟨id ++ "-" ++ toString index, body⟩ :: others

/-- The parallel element on a fan-out, and what continues it. -/
def fork (deeper : Unfolder g) (v : Fin g.size) (stop : Option (Fin g.size)) (scope : Scope g.size) :
    Build (List Element) := do
  let inner := scope.openAt v
  let id ← s.announce "parallel" v
  let lanes ← s.lanes deeper id v inner 0 (g.successorsAt v)
  s.count v
  let element ← s.submit (.parallel id lanes)
  let rest ← s.continuation deeper v stop inner
  return element :: rest

/-- Whether a segment is a choice on a node without branches. -/
def isBareChoice : Segment g.size → Bool
  | .choice v => (g.successorsAt v).isEmpty
  | _ => false

/-- Unfolds a segment, with so much depth left. -/
def unfold (depthLeft : Nat) (segment : Segment g.size) (stop : Option (Fin g.size)) (scope : Scope g.size) :
    Build (List Element) :=
  if isBareChoice segment then throw (unsupported segment.node .noBranches)
  else
    match depthLeft with
    | 0 => throw (.graphTooDeep (g.idAt segment.node) s.maxDepth)
    | depth + 1 =>
      let deeper : Unfolder g := fun segment stop scope => unfold depth segment stop scope
      match segment with
      | .after v => s.sequence deeper v stop scope
      | .choice v => s.choice deeper v stop scope
      | .fork v => s.fork deeper v stop scope

/-- The elements of the whole plan, from the entry on. -/
def unfoldEntry (entry : Fin g.size) : Build (List Element) :=
  match (g.node entry).kind with
  | .conditional _ => s.unfold s.maxDepth (.choice entry) none {}
  | .plain => do
    let first ← s.step entry
    let rest ← s.unfold s.maxDepth (.after entry) none { path := [entry] }
    return first :: rest
  | _ => throw (unsupported entry .entryNotRunnable)

/-- The plan of the graph. -/
def plan : Build Route := do
  let entry ← g.entry
  Build.tell (.entered (g.idAt entry))
  let steps ← s.unfoldEntry entry
  let route : Route := ⟨s.flowId, steps⟩
  Build.tell (.finished route)
  return s.chain.onRoute s.flowId route

end Setting

end FlowPlan
