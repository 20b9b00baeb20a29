import FlowPlan.Files
import FlowPlan.Notice
import FlowPlan.Plan.Tree
import FlowPlan.Text.Alphanumeric

/-!
# Plan dumps

Every compiled plan is also written as a tree to a file of its own below `tmp`. The name of the file holds the letters, numbers,
underscores and hyphens of the flow's id. A dump that cannot be written is told, and nothing more.
-/

namespace FlowPlan

/-- The directory of the dumps. -/
def dumpDirectory : String := "tmp"

namespace Route

/-- The path of the dump of a plan. -/
def dumpPath (r : Route) : String :=
  let kept := r.flowId.toList.filter fun c => Text.isAlphanumeric c || c = '_' || c = '-'
  dumpDirectory ++ "/flow_" ++ String.ofList kept ++ "_plan.txt"

/-- Writes the dump of a plan and says how it went. -/
def dump {m : Type → Type} [Monad m] (disk : Disk m) (r : Route) : m Notice := do
  let path := r.dumpPath
  let written ← match ← disk.makeDirectory dumpDirectory with
    | .ok () => disk.write path (Text.encodeUtf8 r.tree)
    | .error fault => pure (.error fault)
  return match written with
    | .ok () => .info s!"  -> Wrote plan tree to '{path}'"
    | .error fault => .warning s!"Could not write plan tree to '{path}': {fault.message}"

end Route

end FlowPlan
