import FlowPlan.Catalog
import FlowPlan.Compile.Error
import FlowPlan.Flow.Basic
import FlowPlan.Plan.Basic

/-!
# Graph nodes

The nodes of a graph are the nodes of a flow and, behind each conditional one, its branches as nodes of their own. So a
conditional node opens branches by its successors, just as a fan-out does.
-/

namespace FlowPlan

namespace Graph

/-- What a node of a graph is. -/
inductive Kind
  | plain
  /-- a conditional node, with the ids of its branches in order -/
  | conditional (branches : List String)
  /-- a branch of a conditional node; without a condition it is the "otherwise" branch -/
  | branch (parent : String) (condition : Option String)
  /-- a node whose component the catalog does not recognize -/
  | unrecognized
  deriving DecidableEq, Repr

/-- A node of a graph. -/
structure Node where
  id : String
  component : String
  parameters : Dict Value
  kind : Kind
  deriving Repr

namespace Node

def isConditional (n : Node) : Bool :=
  match n.kind with
  | .conditional _ => true
  | _ => false

def isBranch (n : Node) : Bool :=
  match n.kind with
  | .branch .. => true
  | _ => false

/-- The ids of the branches of a node; only a conditional one has any. -/
def branchIds (n : Node) : List String :=
  match n.kind with
  | .conditional branches => branches
  | _ => []

/-- The node as a step of a plan. -/
def toStep (n : Node) : Step where
  id := n.id
  component := n.component
  parameters := n.parameters

/-- A branch as a node; its component is the one of the conditional node. -/
def ofBranch (parent : Flow.Node) (b : Flow.Branch) : Node where
  id := b.id
  component := parent.component
  parameters := ∅
  kind := .branch parent.id b.condition

/-- What the catalog makes of a node. Branches on a plain node are refused, and so is a second "otherwise" branch. -/
def kindOf (catalog : NodeCatalog) (n : Flow.Node) : Except Malformation Kind :=
  match catalog.shapeOf? n.component with
  | some .conditional =>
    let count := (n.branches.filter (·.condition.isNone)).length
    if 1 < count then .error (.severalOtherwise n.id count)
    else .ok (.conditional (n.branches.map (·.id)))
  | some .plain => if n.branches.isEmpty then .ok .plain else .error (.branchesOnPlain n.id n.component)
  | none => .ok .unrecognized

/-- The nodes that a node of a flow stands for: itself and, if it is conditional, its branches. -/
def ofFlowNode (catalog : NodeCatalog) (n : Flow.Node) : Except Malformation (List Node) := do
  let kind ← kindOf catalog n
  let node : Node := ⟨n.id, n.component, Value.ofParameters n.parameters, kind⟩
  return node :: (if node.isConditional then n.branches.map (ofBranch n) else [])

end Node

end Graph

end FlowPlan
