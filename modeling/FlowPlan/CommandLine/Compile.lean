import FlowPlan.Artifact.Store
import FlowPlan.CommandLine.Host
import FlowPlan.Compile.Compiler
import FlowPlan.Flow.Editor
import FlowPlan.Plan.Document
import FlowPlan.Plan.Dump

/-!
# The compile command

Reads an editor document, compiles its flow, and prints the plan as a tree and in one line, or as JSON. On request the plan is
also stored as an artifact.
-/

namespace FlowPlan.CommandLine.Compile

open Flow.Editor (Format)

/-- The settings of the command. -/
structure Settings where
  flowPath : String
  /-- the format of the document; by the extension of its path when it is not given -/
  format : Option Format := none
  /-- where to store the artifact -/
  output : Option String := none
  maxDepth : Option Nat := none
  json : Bool := false
  deriving Repr

/-- The settings before the arguments are read: whether there is a path for the document, and all the rest. -/
structure Draft where
  flowPath : Option String := none
  settings : Settings := { flowPath := "" }

def format? : String → Option Format
  | "json" => some .json
  | "yaml" => some .yaml
  | _ => none

def grammar : Grammar Draft where
  keys := [
    { name := "format", letter := some 'f', effect := .value fun s d => do
        return { d with settings.format := some (← format? s) } },
    { name := "output", letter := some 'o', effect := .value fun s d =>
        some { d with settings.output := some s } },
    { name := "max-depth", effect := .value fun s d => do
        return { d with settings.maxDepth := some (← number? s) } },
    { name := "json", effect := .flag fun d => { d with settings.json := true } }]
  operand := fun s d =>
    match d.flowPath with
    | none => some { d with flowPath := some s }
    | some _ => none

/-- How the command is used. -/
def usage : String :=
  "Usage: compile [--format json|yaml] [--output PATH] [--max-depth N] [--json] FLOW_PATH"

/-- The settings that the arguments name. -/
def readSettings (arguments : List String) : Except Stop Settings := do
  let draft ← grammar.read {} arguments
  match draft.flowPath with
  | some path => return { draft.settings with flowPath := path }
  | none => throw (.missingOperand "FLOW_PATH")

/-- Why the command fails. -/
inductive Failure
  | read (path : String) (fault : FileFault)
  | parse (format : Format) (fault : Json.Fault)
  | convert (error : Flow.Editor.ConversionError)
  | compile (error : CompileError)
  | save (error : ArtifactError)

def formatName : Format → String
  | .json => "JSON"
  | .yaml => "YAML"

def Failure.message : Failure → String
  | .read path fault => s!"Failed to read flow file '{path}': {fault.message}"
  | .parse format fault =>
    let reason := match fault with
      | .malformed => "malformed document"
      | .misfit m => m.message
    s!"Failed to parse flow {formatName format}: {reason}"
  | .convert error => s!"Failed to convert document to flow: {error.message}"
  | .compile error => s!"Compilation failed: {error.message}"
  | .save error => s!"Failed to save artifact: {error.message}"

/-- The end of a command that fails after printing something. -/
def Failure.outcome (failure : Failure) (printed : String) : Outcome :=
  { code := 1, out := printed, err := "\nError: " ++ failure.message ++ "\n" }

/-- The flow in the content of a file. Of YAML, the texts that are JSON too are read. -/
def flowOf (path : String) (format : Format) (content : List UInt8) : Except Failure Flow := do
  match Text.decodeUtf8 content with
  | .error _ => throw (.read path .notText)
  | .ok document =>
    let draft ← (Flow.Editor.parse document).mapError (.parse format)
    (Flow.Editor.convert draft).mapError .convert

def compilerFor (s : Settings) : Compiler :=
  match s.maxDepth with
  | some depth => { maxDepth := depth }
  | none => {}

/-- The plan as it is printed. -/
def planText (json : Bool) (route : Route) : String :=
  if json then route.toJson.pretty ++ "\n"
  else route.tree ++ "\nChain: " ++ route.chain ++ "\n"

/-- A span of time in the largest unit that it fills, without zeros at the end. -/
def spanText (nanoseconds : Nat) : String :=
  let inUnit (digits : Nat) (unit : String) : String :=
    let padded := (toString (nanoseconds % Nat.pow 10 digits + Nat.pow 10 digits)).toList.drop 1
    let fraction := (padded.reverse.dropWhile (· = '0')).reverse
    let mark := if fraction.isEmpty then "" else "."
    toString (nanoseconds / Nat.pow 10 digits) ++ mark ++ String.ofList fraction ++ unit
  if Nat.pow 10 9 ≤ nanoseconds then inUnit 9 "s"
  else if Nat.pow 10 6 ≤ nanoseconds then inUnit 6 "ms"
  else if Nat.pow 10 3 ≤ nanoseconds then inUnit 3 "µs"
  else inUnit 0 "ns"

/-- The first line of the summary, with the end of the line before it. -/
def summaryHead : String := "\n--- Performance Summary ---"

/-- How long the command took. -/
def summary (compiling total : Nat) : String :=
  summaryHead ++ "\nCompilation:      " ++ spanText compiling ++ "\nTotal Execution:  " ++ spanText total ++ "\n"

variable {m : Type → Type} [Monad m] (host : Host m)

/-- Reads the flow of a document. -/
def load (s : Settings) : m (Except Failure Flow) := do
  match ← host.disk.read s.flowPath with
  | .error fault => return .error (.read s.flowPath fault)
  | .ok content => return flowOf s.flowPath (s.format.getD (.ofPath s.flowPath)) content

/-- Stores the artifact if one is wanted, and gives the line that says so. -/
def store (s : Settings) (route : Route) : m (Except Failure String) := do
  match s.output with
  | none => return .ok ""
  | some path =>
    match ← (CompiledFlow.ofRoute route).save host.disk path with
    | .ok () => return .ok s!"Saved compiled flow to '{path}'\n"
    | .error error => return .error (.save error)

/-- Runs the command with its settings. -/
def runWith (s : Settings) : m Outcome := do
  let started ← host.clock
  match ← load host s with
  | .error failure => return failure.outcome ""
  | .ok flow =>
    let loaded ← host.clock
    match (compilerFor s).compile flow with
    | .error error => return (Failure.compile error).outcome ""
    | .ok route =>
      let _ ← route.dump host.disk
      let compiled ← host.clock
      let printed := planText s.json route
      match ← store host s route with
      | .error failure => return failure.outcome printed
      | .ok line =>
        let ended ← host.clock
        return { out := printed ++ line ++ summary (compiled - loaded) (ended - started) }

/-- Runs the command. -/
def run (arguments : List String) : m Outcome := do
  match readSettings arguments with
  | .ok settings => runWith host settings
  | .error stop => return stop.outcome usage

end FlowPlan.CommandLine.Compile
