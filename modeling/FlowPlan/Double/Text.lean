import FlowPlan.Double.Shortest

/-!
# Floating point numbers as text

A `Style` decides what the shortest digits of a number look like: which numbers are written with an exponent, and whether a
whole number shows a fraction. `Double.text` writes a finite number in a style.
-/

namespace FlowPlan

/-- How a finite number is laid out. -/
structure Style where
  /-- which of two equally near shortest decimals is taken -/
  tie : Decimal.Tie
  /-- whether a number `d.ddd * 10 ^ e` is written without an exponent -/
  positional : Int → Bool
  /-- what follows a whole number written without an exponent -/
  wholeMark : String

namespace Decimal

/-- The digits, most significant first. -/
def digitText (d : Decimal) : String :=
  toString d.digits

/-- The `e` of `d.ddd * 10 ^ e`. -/
def leadingExponent (d : Decimal) : Int :=
  (d.digitText.length : Int) - 1 + d.exponent

/-- Without an exponent: zeros fill the places up to the point, or from the point on. -/
def positionalText (d : Decimal) (wholeMark : String) : String :=
  let digits := d.digitText
  if 0 ≤ d.exponent then
    digits ++ String.ofList (List.replicate d.exponent.toNat '0') ++ wholeMark
  else
    let places := (-d.exponent).toNat
    let padded := List.replicate (places + 1 - digits.length) '0' ++ digits.toList
    let whole := padded.length - places
    String.ofList (padded.take whole) ++ "." ++ String.ofList (padded.drop whole)

/-- With an exponent, which always has a sign. -/
def exponentText (d : Decimal) : String :=
  let exponent := d.leadingExponent
  let mantissa := match d.digitText.toList with
    | first :: second :: rest => String.ofList (first :: '.' :: second :: rest)
    | digits => String.ofList digits
  mantissa ++ "e" ++ (if exponent < 0 then "-" else "+") ++ toString exponent.natAbs

/-- A decimal laid out in a style. -/
def text (style : Style) (d : Decimal) : String :=
  if d.digits = 0 then "0" ++ style.wholeMark
  else if style.positional d.leadingExponent then d.positionalText style.wholeMark
  else d.exponentText

end Decimal

namespace Double

/-- A finite number in a style. -/
def text (style : Style) (x : Double) : String :=
  let sign := if x.isNegative then "-" else ""
  let decimal := if x.isZero then ⟨0, 0⟩ else x.shortest style.tie
  sign ++ decimal.text style

end Double

end FlowPlan
