/-!
# Compile errors

What is wrong with a flow. Every error is a fault of the authored graph; none of them goes away by trying again.
-/

namespace FlowPlan

/-- Why nodes and edges do not make a graph. -/
inductive Malformation
  | noNodes
  | noEdges
  | severalOtherwise (node : String) (count : Nat)
  | branchesOnPlain (node component : String)
  | duplicateId (id : String)
  | unknownSource (id : String)
  | unknownTarget (id : String)
  | unknownBranch (source branch : String)
  | bypassesBranches (source target : String)
  | entersBranch (source branch parent : String)
  deriving DecidableEq, Repr

def Malformation.message : Malformation → String
  | .noNodes => "flow has no nodes"
  | .noEdges => "flow has no edges"
  | .severalOtherwise node count => s!"conditional node '{node}' declares {count} otherwise branches"
  | .branchesOnPlain node component => s!"node '{node}' declares branches but component '{component}' is not conditional"
  | .duplicateId id => s!"duplicate node id '{id}'"
  | .unknownSource id => s!"edge references unknown source node '{id}'"
  | .unknownTarget id => s!"edge references unknown target node '{id}'"
  | .unknownBranch source branch => s!"edge leaves conditional node '{source}' through unknown branch '{branch}'"
  | .bypassesBranches source target =>
    s!"edge '{source}' -> '{target}' must leave the conditional node through one of its branches"
  | .entersBranch source branch parent =>
    s!"edge from '{source}' targets branch '{branch}' of conditional node '{parent}'"

/-- Why a node cannot stand in a plan. -/
inductive Obstacle
  | entryNotRunnable
  | unrecognized (component : String)
  | noBranches
  | strayBranch (parent : String)
  | foreignSuccessor (successor : String)
  | mergeIsBranch
  deriving DecidableEq, Repr

def Obstacle.message : Obstacle → String
  | .entryNotRunnable => "entry node is not a plain or conditional node"
  | .unrecognized component => s!"component '{component}' is not in the catalog"
  | .noBranches => "conditional node declares no branches"
  | .strayBranch parent => s!"branch reached outside its conditional node '{parent}'"
  | .foreignSuccessor successor => s!"successor '{successor}' is not one of its branches"
  | .mergeIsBranch => "merge node is a conditional branch"

/-- Why a flow has no plan. -/
inductive CompileError
  | graphMalformed (cause : Malformation)
  | noEntryNode (candidates : List String)
  | unsupportedShape (node : String) (obstacle : Obstacle)
  | graphTooDeep (node : String) (maxDepth : Nat)
  | planTooLarge (node : String) (limit : Nat)
  deriving DecidableEq, Repr

def CompileError.message : CompileError → String
  | .graphMalformed cause => "Flow graph is malformed: " ++ cause.message
  | .noEntryNode candidates =>
    s!"Flow must have exactly one entry node, found {candidates.length}: [" ++ String.intercalate ", " candidates ++ "]"
  | .unsupportedShape node obstacle =>
    s!"Node '{node}' has a shape the compiler cannot classify: " ++ obstacle.message
  | .graphTooDeep node maxDepth =>
    s!"Flow nesting exceeds the maximum compilation depth of {maxDepth} at node '{node}'"
  | .planTooLarge node limit =>
    s!"Compiled plan exceeds {limit} elements at node '{node}'; merge pairing duplicates too much of the flow"

end FlowPlan
