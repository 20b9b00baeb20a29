import FlowPlan.Artifact.Store
import FlowPlan.Compile.Compiler
import FlowPlan.Flow.Document
import FlowPlan.Graph.Question
import FlowPlan.Plan.Dump

/-!
# Sessions

A `Session` is one compiler at work: the graphs and artifacts that it keeps under names, the files around it, what it has told so
far, and the calls of interceptors that no answer has shown yet. `Session.perform` carries out a command. A command that fails
changes nothing that is kept; what it told and the calls that it made stay.
-/

namespace FlowPlan

/-- A graph that a session keeps, and whether its pairing has been told. -/
structure KeptGraph where
  graph : Graph
  pairingTold : Bool := false

/-- One compiler at work. -/
structure Session where
  compiler : Compiler := {}
  /-- flows by name, or the faults of their documents -/
  flows : List (String × Json.Decoded Flow) := []
  graphs : List (String × KeptGraph) := []
  artifacts : List (String × CompiledFlow) := []
  files : Files := {}
  /-- calls of interceptors that wait for an answer -/
  waitingCalls : List String := []
  /-- everything told, the latest notice first -/
  told : List Notice := []

/-- Why a command fails. -/
inductive SessionError
  | document (fault : Json.Fault)
  | compile (error : CompileError)
  | artifact (error : ArtifactError)
  /-- nothing is kept under a name -/
  | missing

/-- What a session can be told to do. Flows, graphs and artifacts go by their names. -/
inductive Command
  | compile (flow : String)
  | index (graph flow : String)
  | copy (new graph : String)
  | compileGraph (graph flowId : String)
  | ask (graph : String) (question : Graph.Question)
  | makeArtifact (name flow : String)
  | retarget (name flowId : String)
  | showArtifact (name : String)
  | bytes (name : String)
  | decode (name : String) (content : List UInt8)
  | equal (first second : String)
  | save (name path : String)
  | load (name path : String)
  | writeFile (path : String) (content : List UInt8)
  | showFile (path : String)

/-- What a command answers. -/
inductive Answer
  | done
  | number (n : Nat)
  | text (s : String)
  | truth (b : Bool)
  | bytes (content : Option (List UInt8))
  | route (r : Route)
  | artifact (c : CompiledFlow)
  | finding (f : Graph.Finding)

/-- A part of a command, which may fail; what it told so far stays when it does. -/
abbrev Work := ExceptT SessionError (StateM Session)

namespace Session

def tell (notices : List Notice) : Work Unit :=
  modify fun s => { s with told := notices.reverse ++ s.told }

/-- Something that may be missing. -/
def require {α : Type} : Option α → Work α
  | some a => return a
  | none => throw .missing

/-- A flow by its name. -/
def flow (name : String) : Work Flow := do
  match ← require ((← get).flows.lookup name) with
  | .ok f => return f
  | .error fault => throw (.document fault)

/-- A kept graph by its name. -/
def graph (name : String) : Work KeptGraph := do
  require ((← get).graphs.lookup name)

/-- A kept artifact by its name. -/
def artifact (name : String) : Work CompiledFlow := do
  require ((← get).artifacts.lookup name)

def keepGraph (name : String) (g : KeptGraph) : Work Unit :=
  modify fun s => { s with graphs := (name, g) :: s.graphs.filter (·.1 ≠ name) }

def keepArtifact (name : String) (c : CompiledFlow) : Work Unit :=
  modify fun s => { s with artifacts := (name, c) :: s.artifacts.filter (·.1 ≠ name) }

/-- Works with the files. -/
def onFiles {α : Type} (work : StateM Files α) : Work α := do
  let s ← get
  let (a, files) := work.run s.files
  set { s with files := files }
  return a

/-- Indexes a flow. -/
def indexFlow (f : Flow) : Work Graph := do
  match (← get).compiler.index f with
  | .ok g =>
    tell [g.indexNotice f.nodes.length]
    return g
  | .error e => throw (.compile e)

/-- Compiles a graph and dumps the plan. The second result is whether the pairing of the graph has been told by now. -/
def compileKept (flowId : String) (kept : KeptGraph) : Work (Except CompileError Route × Bool) := do
  let compiler := (← get).compiler
  let run := compiler.compilation flowId kept.graph
  tell (run.notices flowId kept.graph kept.pairingTold)
  modify fun s => { s with waitingCalls := s.waitingCalls ++ compiler.calls flowId run }
  if let .ok route := run.outcome then
    tell [← onFiles (route.dump Files.disk)]
  return (run.outcome, kept.pairingTold || run.asksForPairing)

/-- The plan of a compilation that did not fail. -/
def planOf : Except CompileError Route → Work Route
  | .ok route => return route
  | .error e => throw (.compile e)

/-- Indexes and compiles a flow. -/
def compileFlow (f : Flow) : Work Route := do
  let g ← indexFlow f
  let (outcome, _) ← compileKept f.id { graph := g }
  planOf outcome

def perform : Command → Work Answer
  | .compile name => do
    return .route (← compileFlow (← flow name))
  | .index name flowName => do
    let g ← indexFlow (← flow flowName)
    keepGraph name { graph := g }
    return .number g.size
  | .copy name source => do
    keepGraph name (← graph source)
    return .done
  | .compileGraph name flowId => do
    let kept ← graph name
    let (outcome, told) ← compileKept flowId kept
    keepGraph name { kept with pairingTold := told }
    return .route (← planOf outcome)
  | .ask name question => do
    let kept ← graph name
    if kept.graph.needsPairing question && !kept.pairingTold then
      tell (kept.graph.pairingNotices kept.graph.pairing)
      keepGraph name { kept with pairingTold := true }
    return .finding (kept.graph.answer question)
  | .makeArtifact name flowName => do
    let c := CompiledFlow.ofRoute (← compileFlow (← flow flowName))
    keepArtifact name c
    return .text c.flowId
  | .retarget name flowId => do
    keepArtifact name { ← artifact name with flowId := flowId }
    return .done
  | .showArtifact name => do
    return .artifact (← artifact name)
  | .bytes name => do
    return .bytes (some (← artifact name).toBytes)
  | .decode name content => do
    match CompiledFlow.decode content with
    | .ok c => do keepArtifact name c; return .done
    | .error e => throw (.artifact e)
  | .equal first second => do
    let kept := (← get).artifacts
    return .truth <| match kept.lookup first, kept.lookup second with
      | some c, some d => c.equal d
      | none, none => true
      | _, _ => false
  | .save name path => do
    let c ← artifact name
    match ← onFiles (c.save Files.disk path) with
    | .ok () => do tell [c.savedNotice path]; return .done
    | .error e => throw (.artifact e)
  | .load name path => do
    match ← onFiles (CompiledFlow.load Files.disk path) with
    | .ok c => do keepArtifact name c; return .done
    | .error e => throw (.artifact e)
  | .writeFile path content => do
    match ← onFiles (Files.disk.write path content) with
    | .ok () => return .done
    | .error fault => throw (.artifact (.io path fault))
  | .showFile path => do
    return .bytes (← onFiles (Files.disk.read path)).toOption

/-- Carries out a command. An answer takes the waiting calls with it; after an error they wait on. -/
def run (command : Command) (s : Session) : Except SessionError (Answer × List String) × Session :=
  match (perform command).run.run s with
  | (.ok answer, s) => (.ok (answer, s.waitingCalls), { s with waitingCalls := [] })
  | (.error e, s) => (.error e, s)

/-- The lines of the log. -/
def log (s : Session) : List String :=
  s.told.reverse.map Notice.line

end Session

end FlowPlan
