import FlowPlan.Flow.Basic
import FlowPlan.Json.Decode

/-!
# Flow documents

A flow as JSON. Every field is written; on reading, parameters, branches, conditions and the branches that edges name may be
left out, and the component and the branch of an edge have a second spelling each.
-/

namespace FlowPlan.Flow

open Json

/-! ## Writing -/

def Branch.toJson (b : Branch) : Json :=
  .record [("id", .text b.id), ("condition", .ofText? b.condition)]

def Node.toJson (n : Node) : Json :=
  .record [("id", .text n.id), ("component_id", .text n.component), ("parameters", .map n.parameters),
    ("children", .list (n.branches.map Branch.toJson))]

def Edge.toJson (e : Edge) : Json :=
  .record [("source", .text e.source), ("source_output", .ofText? e.branch), ("target", .text e.target)]

def toJson (f : Flow) : Json :=
  .record [("id", .text f.id), ("nodes", .list (f.nodes.map Node.toJson)), ("edges", .list (f.edges.map Edge.toJson))]

/-! ## Reading -/

/-- The fields of a JSON record, for a map of any values. -/
def decodeParameters (levels : Nat) (doc : Doc) : Decoded (Dict Json) :=
  doc.decodeDict levels (Doc.decodeJson (levels - 1))

def Branch.layout : Layout Branch where
  title := "struct BranchDefinition"
  blank := default
  slots := [
    { name := "id", fill := fun doc b => do return { b with id := ← doc.decodeText } },
    { name := "condition", presence := .defaulted,
      fill := fun doc b => do return { b with condition := ← doc.decodeOptional Doc.decodeText } }]

def Branch.decode (levels : Nat) (doc : Doc) : Decoded Branch :=
  Branch.layout.decodeAt levels doc

/-- The layout of a node whose fields have so many levels left. -/
def Node.layout (levels : Nat) : Layout Node where
  title := "struct FlowNodeDefinition"
  blank := default
  slots := [
    { name := "id", fill := fun doc n => do return { n with id := ← doc.decodeText } },
    { name := "component_id", otherNames := ["componentId"],
      fill := fun doc n => do return { n with component := ← doc.decodeText } },
    { name := "parameters", presence := .defaulted,
      fill := fun doc n => do return { n with parameters := ← decodeParameters levels doc } },
    { name := "children", presence := .defaulted,
      fill := fun doc n => do return { n with branches := ← doc.decodeList levels (Branch.decode (levels - 1)) } }]

def Node.decode (levels : Nat) (doc : Doc) : Decoded Node :=
  (Node.layout (levels - 1)).decodeAt levels doc

def Edge.layout : Layout Edge where
  title := "struct FlowEdgeDefinition"
  blank := default
  slots := [
    { name := "source", fill := fun doc e => do return { e with source := ← doc.decodeText } },
    { name := "source_output", otherNames := ["sourceOutput"], presence := .defaulted,
      fill := fun doc e => do return { e with branch := ← doc.decodeOptional Doc.decodeText } },
    { name := "target", fill := fun doc e => do return { e with target := ← doc.decodeText } }]

def Edge.decode (levels : Nat) (doc : Doc) : Decoded Edge :=
  Edge.layout.decodeAt levels doc

/-- The layout of a flow whose fields have so many levels left. -/
def layout (levels : Nat) : Layout Flow where
  title := "struct FlowDefinition"
  blank := default
  slots := [
    { name := "id", fill := fun doc f => do return { f with id := ← doc.decodeText } },
    { name := "nodes", fill := fun doc f => do return { f with nodes := ← doc.decodeList levels (Node.decode (levels - 1)) } },
    { name := "edges", fill := fun doc f => do return { f with edges := ← doc.decodeList levels (Edge.decode (levels - 1)) } }]

def decode (levels : Nat) (doc : Doc) : Decoded Flow :=
  (layout (levels - 1)).decodeAt levels doc

/-- Reads a flow document. -/
def parse (s : String) : Decoded Flow :=
  decodeWhole decode s

end FlowPlan.Flow
