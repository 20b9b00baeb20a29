import FlowPlan.Compile.Hooks
import FlowPlan.Main
import FlowPlan.Session
import FlowPlan.Proofs.Graph.Links
import FlowPlan.Proofs.Graph.Indexing
import FlowPlan.Proofs.Graph.Edges
import FlowPlan.Proofs.Compile.Progress
import FlowPlan.Proofs.Compile.Unfolding
import FlowPlan.Proofs.Graph.Merging
import FlowPlan.Proofs.Graph.Reconvergence
import FlowPlan.Proofs.Compile.Emission
import FlowPlan.Proofs.Compile.Coverage
import FlowPlan.Proofs.Compile.Placement
import FlowPlan.Proofs.Compile.Losses
import FlowPlan.Proofs.Compile.Soundness
import FlowPlan.Proofs.Compile.Walks
import FlowPlan.Proofs.Compile.Parts
import FlowPlan.Proofs.Compile.Bodies
import FlowPlan.Proofs.Compile.PassThrough
import FlowPlan.Proofs.Compile.Stages
import FlowPlan.Proofs.Compile.Matching
import FlowPlan.Proofs.Graph.Renumbering
import FlowPlan.Proofs.Compile.Interception
import FlowPlan.Proofs.Graph.Reordering
import FlowPlan.Proofs.Compile.Reordering
import FlowPlan.Proofs.Compile.Spines
import FlowPlan.Proofs.Compile.Frames
import FlowPlan.Proofs.Compile.Termination
import FlowPlan.Proofs.Compile.Limits
import FlowPlan.Proofs.Graph.Acceptance
import FlowPlan.Proofs.Graph.Faithfulness
import FlowPlan.Proofs.Text.Utf8
import FlowPlan.Proofs.Plan
import FlowPlan.Proofs.Nesting
import FlowPlan.Proofs.Compile.Depth
import FlowPlan.Proofs.Compile.Refusals
import FlowPlan.Proofs.Compile.Budget
import FlowPlan.Proofs.Compile.Headroom
import FlowPlan.Proofs.Artifact.Words
import FlowPlan.Proofs.Artifact.RoundTrip
import FlowPlan.Proofs.Compile.Naming
import FlowPlan.Proofs.Compile.Priorities
import FlowPlan.Proofs.Compile.Simulation
import FlowPlan.Proofs.Compile.Copying
import FlowPlan.Proofs.Json.Text
import FlowPlan.Proofs.Json.Levels
import FlowPlan.Proofs.Plan.Document
import FlowPlan.Proofs.Plan.Tree
import FlowPlan.Proofs.Json.Grammar
import FlowPlan.Proofs.Json.Integers
import FlowPlan.Proofs.Json.Spelling
import FlowPlan.Proofs.Flow.Document
import FlowPlan.Proofs.Flow.Growth
import FlowPlan.Proofs.Graph.Waists
import FlowPlan.Proofs.Random.Dice
import FlowPlan.Proofs.Generator.Naming
import FlowPlan.Proofs.Generator.Growth
import FlowPlan.Proofs.Generator.WellFormed
import FlowPlan.Proofs.Compile.Success
import FlowPlan.Proofs.Generator.Unnested
import FlowPlan.Proofs.Compile.Bookkeeping
import FlowPlan.Proofs.Compile.Balance
