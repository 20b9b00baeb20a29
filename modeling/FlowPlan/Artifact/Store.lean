import FlowPlan.Artifact.Codec
import FlowPlan.Files
import FlowPlan.Notice

/-!
# Stored artifacts

Compiled flows in files.
-/

namespace FlowPlan

/-- Why an artifact cannot be stored or loaded. -/
inductive ArtifactError
  | decode (fault : Artifact.DecodeFault)
  | io (path : String) (fault : FileFault)
  deriving DecidableEq, Repr

def ArtifactError.message : ArtifactError → String
  | .decode fault => "Artifact deserialization failed: " ++ fault.message
  | .io path fault => s!"Artifact I/O failed for '{path}': {fault.message}"

namespace CompiledFlow

/-- The compiled flow in bytes. -/
def decode (bytes : List UInt8) : Except ArtifactError CompiledFlow :=
  (ofBytes bytes).mapError .decode

/-- What storing a compiled flow has to say. -/
def savedNotice (c : CompiledFlow) (path : String) : Notice :=
  .info s!"Wrote compiled flow '{c.flowId}' to '{path}'"

variable {m : Type → Type} [Monad m] (disk : Disk m)

/-- Writes a compiled flow to a file. -/
def save (c : CompiledFlow) (path : String) : m (Except ArtifactError Unit) := do
  return (← disk.write path c.toBytes).mapError (.io path)

/-- Reads a compiled flow from a file. -/
def load (path : String) : m (Except ArtifactError CompiledFlow) := do
  match ← disk.read path with
  | .ok bytes => return decode bytes
  | .error fault => return .error (.io path fault)

end CompiledFlow

end FlowPlan
