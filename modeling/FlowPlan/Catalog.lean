import FlowPlan.Notice

/-!
# Component catalogs

The only thing that a compilation wants to know about a component is its shape: whether its successors are plain edges or
named branches. A `NodeCatalog` tells the shape of the components that it recognizes, however it knows them. A `Catalog` is the one
that keeps a list of components; a permissive one takes every other component for plain.
-/

namespace FlowPlan

/-- What the successors of a node are. -/
inductive Shape
  /-- plain edges: one for a sequence, several for a fan-out -/
  | plain
  /-- named branches with conditions -/
  | conditional
  deriving DecidableEq, Repr

/-- Whatever tells the shapes of components. -/
structure NodeCatalog where
  /-- the shape of a component, if the catalog recognizes it -/
  shapeOf? : (component : String) → Option Shape

/-- The shapes of components in a list, and the shape of all others. Of two entries for one component the first one holds. -/
structure Catalog where
  entries : List (String × Shape)
  fallback : Option Shape
  deriving Repr

namespace Catalog

/-- The components that every catalog knows from the start. -/
def builtins : List (String × Shape) := [
  ("choice", .conditional),
  ("start", .plain),
  ("end", .plain),
  ("script", .plain),
  ("transform", .plain),
  ("filter", .plain),
  ("delay", .plain),
  ("log", .plain),
  ("http-request", .plain),
  ("save-telemetry", .plain)]

/-- The shape of a built-in component. -/
def builtinShape? (component : String) : Option Shape :=
  builtins.lookup component

/-- The catalog of the built-in components. -/
def standard : Catalog := ⟨builtins, none⟩

/-- The catalog of the built-in components, for which every other component is plain. -/
def permissive : Catalog := ⟨builtins, some .plain⟩

/-- The shape of a component, if the catalog recognizes it. -/
def shapeOf? (c : Catalog) (component : String) : Option Shape :=
  (c.entries.lookup component).or c.fallback

/-- Gives a component a shape. -/
def withComponent (c : Catalog) (component : String) (shape : Shape) : Catalog :=
  { c with entries := (component, shape) :: c.entries }

/-- Gives a component the shape of a built-in one; nothing changes when there is no such built-in. -/
def withMapping (c : Catalog) (component builtin : String) : Catalog :=
  match builtinShape? builtin with
  | some shape => c.withComponent component shape
  | none => c

/-- A change to a catalog. -/
inductive Change
  | assign (component : String) (shape : Shape)
  | likeBuiltin (component builtin : String)
  deriving Repr

/-- What a change has to say: a mapping to something that is no built-in is passed over. -/
def Change.notices : Change → List Notice
  | .assign .. => []
  | .likeBuiltin component builtin =>
    match builtinShape? builtin with
    | some _ => []
    | none => [.warning s!"Ignoring mapping '{component}' -> '{builtin}': not a built-in component"]

/-- The catalog after a change. -/
def apply (c : Catalog) : Change → Catalog
  | .assign component shape => c.withComponent component shape
  | .likeBuiltin component builtin => c.withMapping component builtin

/-- A list of components is one way to know their shapes. -/
instance : Coe Catalog NodeCatalog where
  coe c := ⟨c.shapeOf?⟩

end Catalog

/-- The catalog of the built-in components. -/
def NodeCatalog.standard : NodeCatalog :=
  Catalog.standard

end FlowPlan
