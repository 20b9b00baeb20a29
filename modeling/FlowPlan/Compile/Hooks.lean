import FlowPlan.Compile.Interceptor

/-!
# Ready-made interceptors

Interceptors that label, wrap, rename or extend what a compilation builds. All of them are named, so their calls are recorded.
-/

namespace FlowPlan.Interceptor

/-- Changes nothing, and is not recorded. -/
def identity : Interceptor := {}

/-- Changes nothing. -/
def recorder (name : String) (priority : Int) : Interceptor where
  name := some name
  priority := priority

/-- A step whose `trace` parameter is extended by a name; anything but a text there is replaced. -/
def stamped (name : String) (node : Step) : Step :=
  let trace := match Dict.get? "trace" node.parameters with
    | some (.text t) => t ++ "," ++ name
    | _ => name
  { node with parameters := Dict.insert "trace" (.text trace) node.parameters }

/-- Signs the `trace` parameter of every step. -/
def stamp (name : String) (priority : Int) : Interceptor where
  name := some name
  priority := priority
  onStep := fun _ element =>
    match element with
    | .sequential node => .sequential (stamped name node)
    | .leaf node => .leaf (stamped name node)
    | element => element

/-- Puts every step into a parallel element of its own. -/
def wrap (name : String) (priority : Int) : Interceptor where
  name := some name
  priority := priority
  onStep := fun flowId element =>
    let wrapped (node : Step) : Element :=
      .parallel (name ++ "(" ++ node.id ++ ")") [⟨flowId ++ "/" ++ name, [element]⟩]
    match element with
    | .sequential node => wrapped node
    | .leaf node => wrapped node
    | element => element

/-- Appends a name to the id of every element. -/
def rename (name : String) (priority : Int) : Interceptor where
  name := some name
  priority := priority
  onStep := fun _ element =>
    let renamed (id : String) : String := id ++ "~" ++ name
    match element with
    | .sequential node => .sequential { node with id := renamed node.id }
    | .leaf node => .leaf { node with id := renamed node.id }
    | .choice id node arms otherwise => .choice (renamed id) node arms otherwise
    | .parallel id lanes => .parallel (renamed id) lanes

/-- Adds a logging step at the end of every plan. -/
def audit (name : String) (priority : Int) : Interceptor where
  name := some name
  priority := priority
  onRoute := fun flowId route =>
    { route with steps := route.steps ++ [.leaf { id := flowId ++ "-" ++ name, component := "log" }] }

/-- Appends a name to the flow id of every plan. -/
def retitle (name : String) (priority : Int) : Interceptor where
  name := some name
  priority := priority
  onRoute := fun _ route => { route with flowId := route.flowId ++ ":" ++ name }

end FlowPlan.Interceptor
