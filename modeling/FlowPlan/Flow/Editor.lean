import FlowPlan.Flow.Document
import FlowPlan.Text.CodePoints

/-!
# Editor documents

A flow as the visual editor saves it: what a node is lies two records further in, next to data that only the editor uses. An
editor document becomes a flow if it has an id that is not blank.
-/

namespace FlowPlan.Flow.Editor

open Json

def branchLayout : Layout Branch where
  title := "struct RawBranch"
  blank := default
  slots := [
    { name := "id", fill := fun doc b => do return { b with id := ← doc.decodeText } },
    { name := "condition", presence := .defaulted,
      fill := fun doc b => do return { b with condition := ← doc.decodeOptional Doc.decodeText } }]

/-- The inner record of a node; it fills all of a node but its id. -/
def dataLayout (levels : Nat) : Layout Node where
  title := "struct RawNodeData"
  blank := default
  slots := [
    { name := "component_id", otherNames := ["componentId"],
      fill := fun doc n => do return { n with component := ← doc.decodeText } },
    { name := "parameters", presence := .defaulted,
      fill := fun doc n => do return { n with parameters := ← decodeParameters levels doc } },
    { name := "branches", presence := .defaulted,
      fill := fun doc n => do return { n with branches := ← doc.decodeList levels (branchLayout.decodeAt (levels - 1)) } }]

/-- The record between a node and its inner record. -/
def wrapperLayout (levels : Nat) : Layout Node where
  title := "struct RawNodeWrapper"
  blank := default
  slots := [
    { name := "node_data", otherNames := ["nodeData"],
      fill := fun doc _ => (dataLayout (levels - 1)).decodeAt levels doc }]

def nodeLayout (levels : Nat) : Layout Node where
  title := "struct RawNode"
  blank := default
  slots := [
    { name := "id", fill := fun doc n => do return { n with id := ← doc.decodeText } },
    { name := "data", fill := fun doc n => do
        return { ← (wrapperLayout (levels - 1)).decodeAt levels doc with id := n.id } }]

def edgeLayout : Layout Edge where
  title := "struct RawEdge"
  blank := default
  slots := [
    { name := "source", fill := fun doc e => do return { e with source := ← doc.decodeText } },
    { name := "source_handle", otherNames := ["sourceHandle"], presence := .defaulted,
      fill := fun doc e => do return { e with branch := ← doc.decodeOptional Doc.decodeText } },
    { name := "target", fill := fun doc e => do return { e with target := ← doc.decodeText } }]

def layout (levels : Nat) : Layout Flow where
  title := "struct RawFlow"
  blank := default
  slots := [
    { name := "id", fill := fun doc f => do return { f with id := ← doc.decodeText } },
    { name := "nodes", fill := fun doc f => do
        return { f with nodes := ← doc.decodeList levels fun d => (nodeLayout (levels - 2)).decodeAt (levels - 1) d } },
    { name := "edges", fill := fun doc f => do
        return { f with edges := ← doc.decodeList levels (edgeLayout.decodeAt (levels - 1)) } }]

/-- Reads an editor document. -/
def parse (s : String) : Decoded Flow :=
  decodeWhole (fun levels doc => (layout (levels - 1)).decodeAt levels doc) s

/-- Why an editor document is no flow. -/
inductive ConversionError
  | noId
  deriving DecidableEq, Repr

def ConversionError.message : ConversionError → String
  | .noId => "Invalid custom data: flow document has no id"

/-- The flow of an editor document. -/
def convert (f : Flow) : Except ConversionError Flow :=
  if Text.isBlank f.id then .error .noId else .ok f

/-- The formats in which editor documents are stored. -/
inductive Format
  | json
  | yaml
  deriving DecidableEq, Repr

/-- The name of the file that a path leads to. -/
def fileName? (path : String) : Option String :=
  match ((path.splitOn "/").filter fun part => part ≠ "" && part ≠ ".").getLast? with
  | some ".." => none
  | name => name

/-- What follows the last point of a name, unless the point is in front. -/
def extension? (name : String) : Option String :=
  let reversed := name.toList.reverse
  match reversed.dropWhile (· ≠ '.') with
  | _ :: _ :: _ => some (String.ofList (reversed.takeWhile (· ≠ '.')).reverse)
  | _ => none

/-- The format that the extension of a path names; JSON if it names none. -/
def Format.ofPath (path : String) : Format :=
  match (fileName? path).bind extension? with
  | some "yaml" => .yaml
  | some "yml" => .yaml
  | _ => .json

end FlowPlan.Flow.Editor
