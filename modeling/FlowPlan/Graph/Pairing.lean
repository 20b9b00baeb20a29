import FlowPlan.Graph.Basic

/-!
# Pairing branch starts with merge nodes

A node with several successors is a branch start, one with several predecessors a branch end. A branch start is paired with
the first branch end, in the order of registration, that it leads to, itself excepted. That is not always the nearest one:
structures that overlap may pair a start with a merge node further out.
-/

namespace FlowPlan.Graph

/-- The merge node of each branch start, if its branches meet again, and the branch starts of each merge node. -/
structure Pairing (n : Nat) where
  mergeOf : Vector (Option (Fin n)) n
  startsOf : Vector (List (Fin n)) n

namespace Pairing

variable {n : Nat}

/-- No branch start is paired. -/
def empty (n : Nat) : Pairing n where
  mergeOf := .replicate n none
  startsOf := .replicate n []

/-- The first of `ends` that a branch start leads to, itself excepted. -/
def mergeFor (a : Adjacency n) (ends : List (Fin n)) (start : Fin n) : Option (Fin n) :=
  ends.find? fun e => e ≠ start && a.reaches start e

/-- Pairs a branch start, and adds it to the branch starts of its merge node. -/
def pair (a : Adjacency n) (ends : List (Fin n)) (p : Pairing n) (start : Fin n) : Pairing n :=
  match mergeFor a ends start with
  | some e =>
    { mergeOf := p.mergeOf.set start (some e) start.isLt
      startsOf := p.startsOf.set e (p.startsOf.get e ++ [start]) e.isLt }
  | none => { p with mergeOf := p.mergeOf.set start none start.isLt }

/-- The pairing of a graph: its branch starts are paired one by one. -/
def ofAdjacency (a : Adjacency n) : Pairing n :=
  let starts := (List.finRange n).filter a.isBranchStart
  let ends := (List.finRange n).filter a.isBranchEnd
  starts.foldl (pair a ends) (empty n)

end Pairing

variable (g : Graph)

/-- The pairing of a graph. -/
def pairing : Pairing g.size :=
  .ofAdjacency g.adjacency

/-- The id of the merge node paired with a branch start. -/
def branchEnd? (id : String) : Option String :=
  (g.find? id).bind fun v => (g.pairing.mergeOf.get v).map g.idAt

/-- The ids of the branch starts paired with a merge node, in the order of registration. -/
def branchStartsOf (id : String) : List String :=
  ((g.find? id).elim [] fun e => g.pairing.startsOf.get e).map g.idAt

/-- What pairing has to say, for each branch start in the order of registration. -/
def pairingNotices (p : Pairing g.size) : List Notice :=
  (g.vertices.filter g.adjacency.isBranchStart).map fun v =>
    match p.mergeOf.get v with
    | some e => .debug s!"Paired branch start '{g.idAt v}' with merge node '{g.idAt e}'"
    | none => .debug s!"Branch start '{g.idAt v}' never reconverges"

end FlowPlan.Graph
