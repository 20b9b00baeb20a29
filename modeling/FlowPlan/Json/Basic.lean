import FlowPlan.Dict
import FlowPlan.Double.Round

/-!
# JSON values

A `Json` is a complete JSON value. Its numbers are integers or floating point numbers. A record has its fields in the order in
which they are declared; a map has its entries in the order of their keys.
-/

namespace FlowPlan

namespace Json

/-- A JSON number: an integer that a 64-bit word holds, signed or unsigned, or a floating point number. -/
inductive Number
  | int (n : Int)
  | float (x : Double)
  deriving DecidableEq, Repr

/-- The number as a floating point number, rounded if it has to be. -/
def Number.toDouble : Number → Double
  | .int n => .ofInt n
  | .float x => x

end Json

/-- A JSON value. -/
inductive Json
  | null
  | bool (b : Bool)
  | number (n : Json.Number)
  | text (s : String)
  | list (items : List Json)
  | record (fields : List (String × Json))
  | map (entries : Dict Json)
  deriving Repr, Inhabited

namespace Json

/-- An integer as a JSON value. -/
def ofInt (n : Int) : Json :=
  .number (.int n)

/-- A text, or `null` when there is none. -/
def ofText? : Option String → Json
  | none => .null
  | some s => .text s

/-- A floating point number; JSON has no infinities and no "not a number", so those are `null`. -/
def ofDouble (x : Double) : Json :=
  if x.isFinite then .number (.float x) else .null

end Json

end FlowPlan
