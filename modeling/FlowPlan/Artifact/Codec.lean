import FlowPlan.Artifact.Word
import FlowPlan.Plan.Basic

/-!
# Compiled flows as bytes

A `CompiledFlow` is a plan under the id of a flow, as it is stored. Its bytes are its fields in order; lists and maps have
their length in front, values and elements the number of their variant. `ofBytes` reads back what `toBytes` wrote, whatever
follows it.
-/

namespace FlowPlan

open Artifact

/-- A plan as it is handed to an engine. -/
structure CompiledFlow where
  flowId : String
  route : Route
  deriving Repr

/-- A plan under its own id. -/
def CompiledFlow.ofRoute (r : Route) : CompiledFlow :=
  ⟨r.flowId, r⟩

/-- Compiled flows are equal when their ids and plans are. -/
def CompiledFlow.equal (c d : CompiledFlow) : Bool :=
  c.flowId == d.flowId && c.route.equal d.route

/-! ## Writing -/

namespace Value

mutual

def encode : Value → List UInt8
  | .null => encodeInteger 0
  | .bool b => encodeInteger 1 ++ encodeBool b
  | .number x => encodeInteger 2 ++ encodeDouble x
  | .text s => encodeInteger 3 ++ encodeText s
  | .list items => encodeInteger 4 ++ encodeInteger items.length ++ encodeItems items
  | .map ⟨keys, _, value⟩ =>
    encodeInteger 5 ++ encodeInteger keys.length ++ (List.ofFn fun i => encodeText (keys.get i) ++ encode (value i)).flatten

def encodeItems : List Value → List UInt8
  | [] => []
  | item :: rest => encode item ++ encodeItems rest

end

end Value

def Step.encode (s : Step) : List UInt8 :=
  encodeText s.id ++ encodeText s.component ++ encodeInteger s.parameters.size
    ++ s.parameters.toList.flatMap fun p => encodeText p.1 ++ p.2.encode

namespace Element

mutual

def encode : Element → List UInt8
  | .sequential node => encodeInteger 0 ++ node.encode
  | .leaf node => encodeInteger 1 ++ node.encode
  | .choice id node arms otherwise =>
    encodeInteger 2 ++ encodeText id ++ node.encode ++ encodeInteger arms.length ++ encodeArms arms
      ++ encodeOtherwise otherwise
  | .parallel id lanes => encodeInteger 3 ++ encodeText id ++ encodeInteger lanes.length ++ encodeLanes lanes

def encodeBody : List Element → List UInt8
  | [] => []
  | element :: rest => encode element ++ encodeBody rest

def encodeArms : List (Arm Element) → List UInt8
  | [] => []
  | ⟨id, condition, body⟩ :: rest =>
    encodeText id ++ encodeText condition ++ encodeInteger body.length ++ encodeBody body ++ encodeArms rest

def encodeLanes : List (Lane Element) → List UInt8
  | [] => []
  | ⟨id, body⟩ :: rest => encodeText id ++ encodeInteger body.length ++ encodeBody body ++ encodeLanes rest

def encodeOtherwise : Option (List Element) → List UInt8
  | none => [0]
  | some body => 1 :: (encodeInteger body.length ++ encodeBody body)

end

end Element

def Route.encode (r : Route) : List UInt8 :=
  encodeText r.flowId ++ encodeInteger r.steps.length ++ Element.encodeBody r.steps

/-- The bytes of a compiled flow. -/
def CompiledFlow.toBytes (c : CompiledFlow) : List UInt8 :=
  encodeText c.flowId ++ c.route.encode

/-! ## Reading

A value or element takes at least the byte of its variant, so the number of bytes bounds how deep they nest. -/

/-- What is found where no byte is left. -/
def atEnd {α : Type} : Reader α :=
  throw (.unexpectedEnd 1)

/-- A dictionary with its size in front; of two values for one key the later one stays. -/
def readDict {α : Type} (item : Reader α) : Reader (Dict α) := do
  return Dict.ofList (← Reader.list do return (← Reader.text, ← item))

/-- A value, in which values nest less than `nesting` deep. -/
def Value.read : (nesting : Nat) → Reader Value
  | 0 => atEnd
  | nesting + 1 => do
    match ← Reader.variant 6 with
    | 0 => return .null
    | 1 => return .bool (← Reader.bool)
    | 2 => return .number (← Reader.double)
    | 3 => return .text (← Reader.text)
    | 4 => return .list (← Reader.list (Value.read nesting))
    | _ => return .map (← readDict (Value.read nesting))

def Step.read (nesting : Nat) : Reader Step := do
  return { id := ← Reader.text, component := ← Reader.text, parameters := ← readDict (Value.read nesting) }

/-- An arm, whose elements `element` reads. -/
def Arm.read (element : Reader Element) : Reader (Arm Element) := do
  return { id := ← Reader.text, condition := ← Reader.text, body := ← Reader.list element }

/-- A lane, whose elements `element` reads. -/
def Lane.read (element : Reader Element) : Reader (Lane Element) := do
  return { id := ← Reader.text, body := ← Reader.list element }

/-- An element, in which elements and values nest less than `nesting` deep. -/
def Element.read : (nesting : Nat) → Reader Element
  | 0 => atEnd
  | nesting + 1 => do
    match ← Reader.variant 4 with
    | 0 => return .sequential (← Step.read nesting)
    | 1 => return .leaf (← Step.read nesting)
    | 2 =>
      let id ← Reader.text
      let node ← Step.read nesting
      let arms ← Reader.list (Arm.read (Element.read nesting))
      let otherwise ← Reader.optional (Reader.list (Element.read nesting))
      return .choice id node arms otherwise
    | _ =>
      let id ← Reader.text
      let lanes ← Reader.list (Lane.read (Element.read nesting))
      return .parallel id lanes

def Route.read (nesting : Nat) : Reader Route := do
  return { flowId := ← Reader.text, steps := ← Reader.list (Element.read nesting) }

/-- The compiled flow in front of bytes. -/
def CompiledFlow.ofBytes (bytes : List UInt8) : Except DecodeFault CompiledFlow := do
  let read : Reader CompiledFlow := do
    return { flowId := ← Reader.text, route := ← Route.read bytes.length }
  return (← read.run bytes).1

end FlowPlan
