import FlowPlan.Compile.Error
import FlowPlan.Notice
import FlowPlan.Plan.Basic

/-!
# The progress of a compilation

What a compilation counts and tells while it goes on: how many generated ids and elements there are so far, and the events
that are worth a line of the log or a call of an interceptor. The events survive an error.
-/

namespace FlowPlan

/-- Something that happens while a plan is built. -/
inductive Event
  | entered (entry : String)
  /-- a choice or parallel element is opened on a node -/
  | opened (kind id node : String) (branches : Nat) (merge : Option String)
  | loopEndsSequence (source target : String)
  | loopEmptiesBranch (target : String)
  | loopEndsContinuation (merge : String)
  | mergeLeftToOutermost (merge : String) (sharers : List String) (start : String)
  /-- a finished element goes to the interceptors -/
  | submitted (element : Element)
  /-- the finished plan goes to the interceptors -/
  | finished (route : Route)

/-- The line of an event, for the events that have one. -/
def Event.notice? (flowId : String) : Event → Option Notice
  | .entered entry => some (.info s!"Compiling flow '{flowId}' from entry node '{entry}'")
  | .opened kind id node branches merge =>
    let end_ := merge.getD "none"
    some (.debug s!"Opening {kind} '{id}' on '{node}' with {branches} branches (merge node: {end_})")
  | .loopEndsSequence source target => some (.debug s!"Back-edge '{source}' -> '{target}' ends the sequence")
  | .loopEmptiesBranch target => some (.debug s!"Back-edge to '{target}' leaves its branch empty")
  | .loopEndsContinuation merge => some (.debug s!"Back-edge to merge node '{merge}' ends the continuation")
  | .mergeLeftToOutermost merge sharers start =>
    let list := String.intercalate ", " sharers
    some (.debug s!"Merge node '{merge}' is shared by [{list}]; '{start}' leaves it to the outermost branch")
  | .submitted _ => none
  | .finished _ => none

/-- Whether an event opens a branch structure, the first thing that asks for the pairing of the graph. -/
def Event.isOpening : Event → Bool
  | .opened .. => true
  | _ => false

/-- The counters and events of a compilation; the latest event stands first. -/
structure Progress where
  nextId : Nat := 0
  emitted : Nat := 0
  events : List Event := []

/-- A part of a compilation: it goes on from some progress, and may fail. -/
abbrev Build := ExceptT CompileError (StateM Progress)

namespace Build

/-- Tells an event. -/
def tell (event : Event) : Build Unit :=
  modify fun p => { p with events := event :: p.events }

/-- The next number for a generated id. -/
def nextNumber : Build Nat := do
  let p ← get
  set { p with nextId := p.nextId + 1 }
  return p.nextId

/-- Counts an element on a node against the limit. -/
def count (limit : Nat) (node : String) : Build Unit := do
  let p ← get
  set { p with emitted := p.emitted + 1 }
  if limit < p.emitted + 1 then throw (.planTooLarge node limit)

end Build

end FlowPlan
