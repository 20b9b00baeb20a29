import FlowPlan.Json.Printer
import FlowPlan.Text.Quoted

/-!
# Parameter values

A `Value` is a parameter as a plan carries it. It has the shapes of a JSON value, but all of its numbers are floating point.
-/

namespace FlowPlan

/-- A parameter of a step. -/
inductive Value
  | null
  | bool (b : Bool)
  | number (x : Double)
  | text (s : String)
  | list (items : List Value)
  | map (entries : Dict Value)
  deriving Repr, Inhabited

namespace Value

mutual

/-- The value of a JSON value; integers become the nearest floating point number. -/
def ofJson : Json → Value
  | .null => .null
  | .bool b => .bool b
  | .number n => .number n.toDouble
  | .text s => .text s
  | .list items => .list (ofItems items)
  | .record fields => .map (Dict.ofList (ofFields fields))
  | .map ⟨keys, sorted, value⟩ => .map ⟨keys, sorted, fun i => ofJson (value i)⟩

def ofItems : List Json → List Value
  | [] => []
  | item :: rest => ofJson item :: ofItems rest

def ofFields : List (String × Json) → List (String × Value)
  | [] => []
  | (key, item) :: rest => (key, ofJson item) :: ofFields rest

end

/-- The values of a dictionary of parameters. -/
def ofParameters (parameters : Dict Json) : Dict Value :=
  parameters.map ofJson

/-! ## Display -/

/-- Fractions, and whole numbers too large for a machine integer, are written out in full. -/
def style : Style where
  tie := .up
  positional := fun _ => true
  wholeMark := ""

/-- The whole number below `2 ^ 63` that a finite number is, if it is one. -/
def whole? (x : Double) : Option Int :=
  if !x.isFinite then none
  else
    let (num, den) := x.ratio
    let n := num / den
    if num % den = 0 && n < Nat.pow 2 63 then some (if x.isNegative then -(n : Int) else n) else none

/-- A number as plans show it. -/
def numberText (x : Double) : String :=
  match whole? x with
  | some n => toString n
  | none =>
    if x.isNaN then "NaN"
    else if x.isInfinite then (if x.isNegative then "-inf" else "inf")
    else x.text style

mutual

/-- A value on one line. -/
def display : Value → String
  | .null => "null"
  | .bool b => if b then "true" else "false"
  | .number x => numberText x
  | .text s => Text.quoted s
  | .list items => "[" ++ String.intercalate ", " (displayItems items) ++ "]"
  | .map ⟨keys, _, value⟩ =>
    "\x7b" ++ String.intercalate ", " (List.ofFn fun i => keys.get i ++ ": " ++ display (value i)) ++ "\x7d"

def displayItems : List Value → List String
  | [] => []
  | item :: rest => display item :: displayItems rest

end

/-! ## Equality and numbers -/

mutual

/-- Values are equal when their numbers compare equal and all else is the same. -/
def equal : Value → Value → Bool
  | .null, .null => true
  | .bool a, .bool b => a == b
  | .number x, .number y => x.equal y
  | .text s, .text t => s == t
  | .list xs, .list ys => equalItems xs ys
  | .map d, .map e => equalDict d e
  | _, _ => false

def equalItems : List Value → List Value → Bool
  | [], [] => true
  | x :: xs, y :: ys => equal x y && equalItems xs ys
  | _, _ => false

def equalDict : Dict Value → Dict Value → Bool
  | ⟨keys, _, value⟩, e => keys.length == e.size &&
    ((List.finRange keys.length).zip e.toList).all fun (i, (key, y)) => keys.get i == key && equal (value i) y

end

mutual

/-- All numbers in a value, lists in order and maps in the order of their keys. -/
def numbers : Value → List Double
  | .number x => [x]
  | .list items => numbersOfItems items
  | .map ⟨_, _, value⟩ => (List.ofFn fun i => numbers (value i)).flatten
  | _ => []

def numbersOfItems : List Value → List Double
  | [] => []
  | item :: rest => numbers item ++ numbersOfItems rest

end

end Value

end FlowPlan
