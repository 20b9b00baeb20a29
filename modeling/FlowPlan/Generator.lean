import FlowPlan.Flow.Basic
import FlowPlan.Random.Dice

/-!
# Random flows

A generator makes flows that are nested as the compiler expects it: a start node, a number of stages, and an end node. A stage is
a straight run of plain nodes, or a fan-out or conditional node whose branches are stages again and meet in one merge node.
-/

namespace FlowPlan

/-- A generator at work: the state of its dice, the number of the latest node, and what it has made, the latest first. -/
structure Generator (σ : Type) where
  state : σ
  counter : Nat := 0
  nodes : List Flow.Node := []
  edges : List Flow.Edge := []

namespace Generator

variable {σ : Type}

/-- A part of the making of a flow. -/
abbrev Make (σ : Type) := StateM (Generator σ)

/-- The components of plain nodes. -/
def plainComponents : List String :=
  ["script", "transform", "filter", "delay", "log", "http-request"]

/-- A number with at least four digits. -/
def paddedNumber (n : Nat) : String :=
  let digits := toString n
  String.ofList (List.replicate (4 - digits.length) '0') ++ digits

/-- The id of a new node. -/
def newId : Make σ String := do
  let g ← get
  set { g with counter := g.counter + 1 }
  return "n" ++ paddedNumber (g.counter + 1)

def addNode (n : Flow.Node) : Make σ Unit :=
  modify fun g => { g with nodes := n :: g.nodes }

def addEdge (e : Flow.Edge) : Make σ Unit :=
  modify fun g => { g with edges := e :: g.edges }

/-- Connects two nodes. -/
def link (source target : String) : Make σ Unit :=
  addEdge { source := source, target := target }

/-- A new node without branches; gives its id. -/
def node (component : String) (parameters : Dict Json) : Make σ String := do
  let id ← newId
  addNode { id := id, component := component, parameters := parameters }
  return id

variable (dice : Random.Dice σ)

def flip (tenths : Nat) : Make σ Bool := do
  let g ← get
  let (b, state) := dice.flip tenths g.state
  set { g with state := state }
  return b

def pick (low high : Nat) : Make σ Nat := do
  let g ← get
  let (n, state) := dice.pick low high g.state
  set { g with state := state }
  return n

/-- A new plain node with a random component and weight. -/
def plain : Make σ String := do
  let component := plainComponents.getD (← pick dice 0 (plainComponents.length - 1)) ""
  let weight ← pick dice 1 100
  node component (.single "weight" (.ofInt weight))

/-- So many plain nodes one after the other; gives the id of the last one. -/
def straight (tail : String) : Nat → Make σ String
  | 0 => return tail
  | n + 1 => do
    let next ← plain dice
    link tail next
    straight next n

/-- One to three plain nodes. -/
def sequence (tail : String) : Make σ String := do
  straight dice tail (← pick dice 1 3)

/-- A merge node behind branches. -/
def merge (tails : List String) : Make σ String := do
  let id ← node "transform" ∅
  tails.forM (link · id)
  return id

/-- So many branches of a fan-out; gives the ids at their ends. -/
def lanes (inner : String → Make σ String) (start : String) : Nat → Make σ (List String)
  | 0 => return []
  | n + 1 => do
    let head ← plain dice
    link start head
    let tail ← inner head
    let others ← lanes inner start n
    return tail :: others

/-- A fan-out whose branches go on with `inner`. -/
def parallel (width : Nat) (inner : String → Make σ String) (start : String) : Make σ String := do
  let count ← pick dice 2 width
  merge (← lanes dice inner start count)

/-- The branch of a conditional node at an index; the last one may be the "otherwise" branch. -/
def branchAt (id : String) (count : Nat) (withOtherwise : Bool) (index : Nat) : Flow.Branch where
  id := s!"{id}-b{index}"
  condition := if withOtherwise && index + 1 = count then none else some s!"input.value > {index * 10}"

/-- A conditional node with so many branches. -/
def conditionalNode (id : String) (count : Nat) (withOtherwise : Bool) : Flow.Node where
  id := id
  component := "choice"
  branches := (List.range count).map (branchAt id count withOtherwise)

/-- A new conditional node behind another node. Its number is taken before the dice decide on its branches. -/
def conditional (count : Nat) (start : String) : Make σ Flow.Node := do
  let id ← newId
  let n := conditionalNode id count (← flip dice 7)
  addNode n
  link start n.id
  return n

/-- What follows the branches of a conditional node; gives the ids at their ends. -/
def arms (inner : String → Make σ String) (id : String) : List Flow.Branch → Make σ (List String)
  | [] => return []
  | branch :: rest => do
    let head ← plain dice
    addEdge { source := id, branch := some branch.id, target := head }
    let tail ← inner head
    let others ← arms inner id rest
    return tail :: others

/-- A conditional node whose branches go on with `inner`. -/
def choice (width : Nat) (inner : String → Make σ String) (start : String) : Make σ String := do
  let count ← pick dice 2 width
  let n ← conditional dice count start
  merge (← arms dice inner n.id n.branches)

/-- A stage behind a node, with structures nested at most so deep; gives the id of its last node. -/
def stage (width : Nat) : (depth : Nat) → (tail : String) → Make σ String
  | 0, tail => sequence dice tail
  | depth + 1, tail => do
    if ← flip dice 3 then sequence dice tail
    else if ← flip dice 5 then parallel dice width (fun head => stage width depth head) tail
    else choice dice width (fun head => stage width depth head) tail

/-- So many stages one after the other. -/
def stages (width depth : Nat) (tail : String) : Nat → Make σ String
  | 0 => return tail
  | n + 1 => do
    let tail ← stage dice width depth tail
    stages width depth tail n

/-- All of a flow: a start node, so many stages behind it, and an end node. -/
def trunk (width depth count : Nat) : Make σ Unit := do
  let start ← node "start" ∅
  let tail ← stages dice width depth start count
  let last ← node "end" ∅
  link tail last

/-- A flow with so many stages. The numbers of nodes and the state of the dice go on from the flow before. -/
def generate (width : Nat) (id : String) (depth count : Nat) : Make σ Flow := do
  trunk dice width depth count
  let g ← get
  set { g with nodes := [], edges := [] }
  return { id := id, nodes := g.nodes.reverse, edges := g.edges.reverse }

end Generator

end FlowPlan
