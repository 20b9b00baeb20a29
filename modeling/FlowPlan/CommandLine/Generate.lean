import FlowPlan.CommandLine.Host
import FlowPlan.Compile.Compiler
import FlowPlan.Flow.Document
import FlowPlan.Generator
import FlowPlan.Plan.Dump
import FlowPlan.Random.Dice

/-!
# The generate command

Makes a random flow, compiles it once to see that it can be compiled, and writes it to a file.
-/

namespace FlowPlan.CommandLine.Generate

/-- The settings of the command. -/
structure Settings where
  output : String := "generated_flow.json"
  /-- a new one when it is not given -/
  seed : Option Nat := none
  depth : Nat := 3
  width : Nat := 3
  stages : Nat := 4
  deriving Repr

def grammar : Grammar Settings where
  keys := [
    { name := "output", letter := some 'o', effect := .value fun s settings => some { settings with output := s } },
    { name := "seed", effect := .value fun s settings => do return { settings with seed := some (← number? s) } },
    { name := "depth", effect := .value fun s settings => do return { settings with depth := ← number? s } },
    { name := "width", effect := .value fun s settings => do return { settings with width := ← number? s } },
    { name := "stages", effect := .value fun s settings => do return { settings with stages := ← number? s } }]
  operand := fun _ _ => none

/-- How the command is used. -/
def usage : String :=
  "Usage: generate [--output PATH] [--seed N] [--depth N] [--width N] [--stages N]"

/-- The least number of branches that a structure may be allowed to have. -/
def leastWidth : Nat := 2

variable {m : Type → Type} [Monad m] (host : Host m)

/-- What the test compilation says. A plan that it gives is dumped like every other. -/
def tryCompile (flow : Flow) : m String := do
  match ({} : Compiler).compile flow with
  | .ok route =>
    let _ ← route.dump host.disk
    return s!"-> Compiles to {route.steps.length} top-level steps.\n"
  | .error error => return s!"-> Warning: generated flow does not compile: {error.message}\n"

/-- Runs the command with its settings and a seed. -/
def runWith (s : Settings) (seed : Nat) : m Outcome := do
  let opening :=
    s!"Generating flow (seed {seed}, depth {s.depth}, width {s.width}, stages {s.stages})...\n"
  let generator : Generator Random.Stream := { state := .ofSeed seed }
  let (flow, _) := (Generator.generate Random.Stream.dice s.width s!"generated-{seed}" s.depth s.stages).run generator
  let sizes := s!"-> Generated {flow.nodes.length} nodes and {flow.edges.length} edges.\n"
  let trial ← tryCompile host flow
  let printed := opening ++ sizes ++ trial
  match ← host.disk.write s.output (Text.encodeUtf8 flow.toJson.pretty) with
  | .ok () => return { out := printed ++ s!"Successfully generated and saved flow to '{s.output}'\n" }
  | .error fault => return { code := 1, out := printed, err := s!"Error: {fault.fieldText}\n" }

/-- Runs the command. -/
def run (arguments : List String) : m Outcome := do
  match grammar.read {} arguments with
  | .error stop => return stop.outcome usage
  | .ok s =>
    if s.width < leastWidth then
      return { code := 1, err := s!"Error: --width ({s.width}) must be at least {leastWidth}\n" }
    else
      match s.seed with
      | some seed => runWith host s seed
      | none => do runWith host s (← host.seed)

end FlowPlan.CommandLine.Generate
