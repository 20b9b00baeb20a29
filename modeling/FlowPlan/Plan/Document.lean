import FlowPlan.Plan.Basic
import FlowPlan.Json.Decode

/-!
# Plan documents

A plan as JSON. Values and elements are written with the name of their variant as the only key, so a plan read back is the plan
that was written. Every function that reads something recursive takes one level of nesting off the levels that are left.
-/

namespace FlowPlan

open Json

/-- What no level of nesting is left for. -/
def tooDeep {α : Type} (_ : Doc) : Decoded α :=
  .error .malformed

/-! ## Values -/

namespace Value

mutual

def toJson : Value → Json
  | .null => .text "Null"
  | .bool b => .record [("Bool", .bool b)]
  | .number x => .record [("Number", .ofDouble x)]
  | .text s => .record [("Text", .text s)]
  | .list items => .record [("List", .list (itemsToJson items))]
  | .map ⟨keys, sorted, value⟩ => .record [("Map", .map ⟨keys, sorted, fun i => toJson (value i)⟩)]

def itemsToJson : List Value → List Json
  | [] => []
  | item :: rest => toJson item :: itemsToJson rest

end

def variants : List String := ["Null", "Bool", "Number", "Text", "List", "Map"]

/-- The content of the named variant, at so many levels; `value` reads what a container in it holds. -/
def decodeContent (levels : Nat) (value : Doc → Decoded Value) (name : String) (content : Doc) : Decoded Value :=
  match name with
  | "Bool" => .bool <$> content.decodeBool
  | "Number" => .number <$> content.decodeDouble
  | "Text" => .text <$> content.decodeText
  | "List" => .list <$> content.decodeList levels value
  | "Map" => .map <$> content.decodeDict levels value
  | _ => (fun _ => .null) <$> content.decodeNull

/-- A value, whose variant takes one of the levels that are left, and whose content may take another. -/
def decode : (levels : Nat) → Doc → Decoded Value
  | levels, doc => do
    match ← doc.variant levels variants with
    | .bare name => if name = "Null" then return .null else throw (.bareVariant "newtype variant")
    | .filled name content =>
      let value ← match levels with
        | inner + 2 => decodeContent (inner + 1) (fun d => decode inner d) name content
        | levels => decodeContent (levels - 1) tooDeep name content
      Doc.ifClosed doc.holdsOneField value

/-- Reads a text as a value in its tagged form. -/
def parse (s : String) : Decoded Value :=
  decodeWhole decode s

end Value

/-! ## Writing plans -/

def Step.toJson (s : Step) : Json :=
  .record [("id", .text s.id), ("component_id", .text s.component),
    ("parameters", .map (s.parameters.map Value.toJson))]

namespace Element

mutual

def toJson : Element → Json
  | .sequential node => .record [("Sequential", .record [("node", node.toJson)])]
  | .leaf node => .record [("Leaf", .record [("node", node.toJson)])]
  | .choice id node arms otherwise =>
    .record [("Choice", .record [("id", .text id), ("node", node.toJson), ("branches", .list (armsToJson arms)),
      ("otherwise", otherwiseToJson otherwise)])]
  | .parallel id lanes => .record [("Parallel", .record [("id", .text id), ("branches", .list (lanesToJson lanes))])]

def bodyToJson : List Element → List Json
  | [] => []
  | element :: rest => toJson element :: bodyToJson rest

def armsToJson : List (Arm Element) → List Json
  | [] => []
  | ⟨id, condition, body⟩ :: rest =>
    .record [("id", .text id), ("condition", .text condition), ("body", .list (bodyToJson body))] :: armsToJson rest

def lanesToJson : List (Lane Element) → List Json
  | [] => []
  | ⟨id, body⟩ :: rest =>
    .record [("branch_id", .text id), ("body", .list (bodyToJson body))] :: lanesToJson rest

def otherwiseToJson : Option (List Element) → Json
  | none => .null
  | some body => .list (bodyToJson body)

end

end Element

def Route.toJson (r : Route) : Json :=
  .record [("flow_id", .text r.flowId), ("steps", .list (Element.bodyToJson r.steps))]

/-! ## Reading plans -/

namespace Step

/-- The layout of a step whose fields have so many levels left. -/
def layout (levels : Nat) : Layout Step where
  title := "struct PlanStep"
  blank := default
  slots := [
    { name := "id", fill := fun doc s => do return { s with id := ← doc.decodeText } },
    { name := "component_id", fill := fun doc s => do return { s with component := ← doc.decodeText } },
    { name := "parameters",
      fill := fun doc s => do
        return { s with parameters := ← doc.decodeDict levels (Value.decode (levels - 1)) } }]

def decode (levels : Nat) (doc : Doc) : Decoded Step :=
  (layout (levels - 1)).decodeAt levels doc

end Step

namespace Element

def variants : List String := ["Sequential", "Leaf", "Choice", "Parallel"]

/-- The only slot of a step's variant. -/
def stepLayout (name : String) (levels : Nat) : Layout Step where
  title := "struct variant PlanNode::" ++ name
  blank := default
  slots := [{ name := "node", fill := fun doc _ => Step.decode levels doc }]

/-- What a choice is read from. -/
structure ChoiceParts where
  id : String
  node : Step
  arms : List (Arm Element)
  otherwise : Option (List Element)
  deriving Inhabited

/-- The slots of a choice; `arms` and `body` read its branches. -/
def choiceLayout (levels : Nat) (arms : Doc → Decoded (List (Arm Element))) (body : Doc → Decoded (List Element)) :
    Layout ChoiceParts where
  title := "struct variant PlanNode::Choice"
  blank := default
  slots := [
    { name := "id", fill := fun doc c => do return { c with id := ← doc.decodeText } },
    { name := "node", fill := fun doc c => do return { c with node := ← Step.decode levels doc } },
    { name := "branches", fill := fun doc c => do return { c with arms := ← arms doc } },
    { name := "otherwise", presence := .optional,
      fill := fun doc c => do return { c with otherwise := ← doc.decodeOptional body } }]

/-- The slots of a parallel element. -/
def parallelLayout (lanes : Doc → Decoded (List (Lane Element))) : Layout (String × List (Lane Element)) where
  title := "struct variant PlanNode::Parallel"
  blank := default
  slots := [
    { name := "id", fill := fun doc p => do return (← doc.decodeText, p.2) },
    { name := "branches", fill := fun doc p => do return (p.1, ← lanes doc) }]

/-- The slots of an arm. -/
def armLayout (body : Doc → Decoded (List Element)) : Layout (Arm Element) where
  title := "struct ChoiceBranch"
  blank := ⟨"", "", []⟩
  slots := [
    { name := "id", fill := fun doc a => do return { a with id := ← doc.decodeText } },
    { name := "condition", fill := fun doc a => do return { a with condition := ← doc.decodeText } },
    { name := "body", fill := fun doc a => do return { a with body := ← body doc } }]

/-- The slots of a lane. -/
def laneLayout (body : Doc → Decoded (List Element)) : Layout (Lane Element) where
  title := "struct ParallelBranch"
  blank := ⟨"", []⟩
  slots := [
    { name := "branch_id", fill := fun doc l => do return { l with id := ← doc.decodeText } },
    { name := "body", fill := fun doc l => do return { l with body := ← body doc } }]

/-- The content of the named variant, at so many levels. -/
def contentWith (levels : Nat) (arms : Doc → Decoded (List (Arm Element))) (lanes : Doc → Decoded (List (Lane Element)))
    (body : Doc → Decoded (List Element)) (name : String) (content : Doc) : Decoded Element :=
  match name with
  | "Sequential" => .sequential <$> (stepLayout name (levels - 1)).decodeAt levels content
  | "Leaf" => .leaf <$> (stepLayout name (levels - 1)).decodeAt levels content
  | "Choice" => (fun c => .choice c.id c.node c.arms c.otherwise) <$>
      (choiceLayout (levels - 1) arms body).decodeAt levels content
  | _ => (fun p => .parallel p.1 p.2) <$> (parallelLayout lanes).decodeAt levels content

mutual

/-- An element, whose variant takes a level. -/
def decode : (levels : Nat) → Doc → Decoded Element
  | levels, doc => do
    match ← doc.variant levels variants with
    | .bare _ => throw (.bareVariant "struct variant")
    | .filled name content =>
      let element ← match levels with
        | inner + 1 => decodeContent inner name content
        | 0 => throw .malformed
      Doc.ifClosed doc.holdsOneField element

/-- The content of a variant: a record, which takes a level. -/
def decodeContent : (levels : Nat) → String → Doc → Decoded Element
  | inner + 1, name, doc =>
    contentWith (inner + 1) (fun d => decodeArms inner d) (fun d => decodeLanes inner d) (fun d => decodeBody inner d)
      name doc
  | 0, name, doc => contentWith 0 tooDeep tooDeep tooDeep name doc

/-- The arms of a choice: a list, which takes a level. -/
def decodeArms : (levels : Nat) → Doc → Decoded (List (Arm Element))
  | inner + 1, doc => doc.decodeList (inner + 1) fun d => decodeArm inner d
  | 0, doc => doc.decodeList 0 tooDeep

/-- An arm: a record, which takes a level. -/
def decodeArm : (levels : Nat) → Doc → Decoded (Arm Element)
  | inner + 1, doc => (armLayout fun d => decodeBody inner d).decodeAt (inner + 1) doc
  | 0, doc => (armLayout tooDeep).decodeAt 0 doc

/-- The lanes of a parallel element: a list, which takes a level. -/
def decodeLanes : (levels : Nat) → Doc → Decoded (List (Lane Element))
  | inner + 1, doc => doc.decodeList (inner + 1) fun d => decodeLane inner d
  | 0, doc => doc.decodeList 0 tooDeep

/-- A lane: a record, which takes a level. -/
def decodeLane : (levels : Nat) → Doc → Decoded (Lane Element)
  | inner + 1, doc => (laneLayout fun d => decodeBody inner d).decodeAt (inner + 1) doc
  | 0, doc => (laneLayout tooDeep).decodeAt 0 doc

/-- A body: a list, which takes a level. -/
def decodeBody : (levels : Nat) → Doc → Decoded (List Element)
  | inner + 1, doc => doc.decodeList (inner + 1) fun d => decode inner d
  | 0, doc => doc.decodeList 0 tooDeep

end

/-- Reads a text as an element. -/
def parse (s : String) : Decoded Element :=
  decodeWhole decode s

end Element

namespace Route

/-- The layout of a route whose fields have so many levels left. -/
def layout (levels : Nat) : Layout Route where
  title := "struct Route"
  blank := default
  slots := [
    { name := "flow_id", fill := fun doc r => do return { r with flowId := ← doc.decodeText } },
    { name := "steps", fill := fun doc r => do return { r with steps := ← Element.decodeBody levels doc } }]

def decode (levels : Nat) (doc : Doc) : Decoded Route :=
  (layout (levels - 1)).decodeAt levels doc

/-- Reads a text as a plan. -/
def parse (s : String) : Decoded Route :=
  decodeWhole decode s

end Route

end FlowPlan
