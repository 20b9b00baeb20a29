import FlowPlan.Json.Basic

/-!
# Number literals

A `Literal` is the digits of a JSON number as they are written. `Literal.value?` is the number it stands for: an integer that
fits into 64 bits stays one, and every other literal is a floating point number. Its digits are gathered into a 64-bit
significand as long as they fit, and the significand is scaled by one multiplication or division with a power of ten. A
literal past the largest finite number has no value.
-/

namespace FlowPlan.Json

/-- The digits of a number as written: sign, digits before the point, digits after it, exponent with its sign. -/
structure Literal where
  negative : Bool
  whole : List Nat
  fraction : List Nat
  exponent : Option (Bool × List Nat)
  deriving DecidableEq, Repr

namespace Literal

/-- The first number past 64 bits. -/
def wordLimit : Nat := Nat.pow 2 64

/-- Appends digits to a significand while the result fits into 64 bits; gives the result and the digits left over. -/
def gather (significand : Nat) : List Nat → Nat × List Nat
  | [] => (significand, [])
  | d :: rest =>
    if significand * 10 + d < wordLimit then gather (significand * 10 + d) rest else (significand, d :: rest)

/-- The value of decimal digits. -/
def digitsValue (digits : List Nat) : Nat :=
  digits.foldl (fun n d => n * 10 + d) 0

/-- The nearest number to `10 ^ n`. -/
def powerOfTen (n : Nat) : Double :=
  .ofNat (Nat.pow 10 n)

/-- The largest power of ten that is a finite number. -/
def topPower : Nat := 308

/-- A finite number times `10 ^ exponent`; an exponent out of reach of one power of ten is worked off in steps. Nothing past
the largest finite number. -/
def scaled (x : Double) (exponent : Int) : Option Double :=
  if exponent.natAbs ≤ topPower then
    if 0 ≤ exponent then
      let product := x.mul (powerOfTen exponent.natAbs)
      if product.isInfinite then none else some product
    else some (x.div (powerOfTen exponent.natAbs))
  else if x.isZero then some x
  else if 0 ≤ exponent then none
  else scaled (x.div (powerOfTen topPower)) (exponent + topPower)
termination_by exponent.natAbs
decreasing_by simp only [topPower] at *; omega

/-- The exponent written, as an integer. Nothing when its digits pass 31 bits. -/
def writtenExponent? : Option (Bool × List Nat) → Option Int
  | none => some 0
  | some (negative, digits) =>
    let n := digitsValue digits
    if n < Nat.pow 2 31 then some (if negative then -(n : Int) else n) else none

/-- Whether the exponent is written with a minus sign. -/
def exponentFalls : Option (Bool × List Nat) → Bool
  | some (negative, _) => negative
  | none => false

/-- The magnitude of a literal with a fraction, an exponent or too many digits. -/
def magnitude? (l : Literal) : Option Double :=
  let (gathered, extra) := gather 0 l.whole
  let (significand, ignored) := gather gathered l.fraction
  let shift : Int := (extra.length : Int) - (l.fraction.length - ignored.length : Nat)
  match writtenExponent? l.exponent with
  | some exponent => scaled (.ofNat significand) (shift + exponent)
  | none => if significand = 0 || exponentFalls l.exponent then some .zero else none

/-- The number that a literal stands for. -/
def value? (l : Literal) : Option Number :=
  let n := digitsValue l.whole
  if l.fraction.isEmpty && l.exponent.isNone && n < wordLimit then
    if l.negative then
      if n = 0 || Nat.pow 2 63 < n then some (.float (Double.ofNat n).neg) else some (.int (-n))
    else some (.int n)
  else l.magnitude?.map fun x => .float (if l.negative then x.neg else x)

end Literal

end FlowPlan.Json
