import FlowPlan.Double.Basic

/-!
# The fewest digits that read back

`Double.shortest` is the decimal with the fewest digits among those that round to a given number, and the one nearest to it
among those. The decimals that round to `m * 2 ^ q` lie in an interval around it, which holds its two ends when `m` is even.
A power of ten spaces a grid of decimals; from the coarsest grid down, the first one with a point in the interval wins, and
such a point is always one of the number's two neighbours on the grid.
-/

namespace FlowPlan

/-- The decimal number `digits * 10 ^ exponent`. -/
structure Decimal where
  digits : Nat
  exponent : Int
  deriving DecidableEq, Repr

namespace Decimal

/-- Which of two equally near decimals is taken. -/
inductive Tie
  /-- the one with an even last digit -/
  | even
  /-- the larger one -/
  | up
  deriving DecidableEq, Repr

/-- Positive numbers measured in quarters of the last binary place, against a grid of spacing `10 ^ k`: a point `c` of the grid
and `t` quarters stand in the order of `c * point` and `t * quarter`. -/
structure Grid where
  point : Nat
  quarter : Nat

/-- The grid of spacing `10 ^ k` for numbers in units of `2 ^ u`. -/
def Grid.make (k u : Int) : Grid where
  point := Nat.pow 10 k.toNat * Nat.pow 2 (-u).toNat
  quarter := Nat.pow 10 (-k).toNat * Nat.pow 2 u.toNat

/-- The point of the grid inside the interval from `low` to `high` that is nearest to `middle`, all in quarters. -/
def Grid.nearest? (g : Grid) (tie : Tie) (closed : Bool) (low middle high : Nat) : Option Nat :=
  let below := middle * g.quarter / g.point
  let above := below + 1
  let belowFits := if closed then low * g.quarter ≤ below * g.point else low * g.quarter < below * g.point
  let aboveFits := if closed then above * g.point ≤ high * g.quarter else above * g.point < high * g.quarter
  match decide belowFits, decide aboveFits with
  | false, false => none
  | true, false => some below
  | false, true => some above
  | true, true =>
    let twice := 2 * middle * g.quarter
    let half := (below + above) * g.point
    if twice < half then some below
    else if half < twice then some above
    else match tie with
      | .even => some (if below % 2 = 0 then below else above)
      | .up => some above

end Decimal

namespace Double

open Decimal

/-- Whether the next smaller number is half as far away as the next larger one. -/
def atBinadeStart (x : Double) : Bool :=
  x.fractionField = 0 && 1 < x.exponentField

/-- An exponent whose power of ten is above the number `m * 2 ^ q`. -/
def decimalCeiling (x : Double) : Int :=
  ((Nat.log2 x.significand : Int) + x.scale) * 30103 / 100000 + 2

/-- The shortest decimal that rounds to the magnitude of a finite number. -/
def shortest (tie : Tie) (x : Double) : Decimal :=
  let middle := 4 * x.significand
  let low := if x.atBinadeStart then middle - 1 else middle - 2
  let closed := x.significand % 2 = 0
  let hit := (List.range 24).findSome? fun (i : Nat) =>
    let k := x.decimalCeiling - i
    (Grid.make k (x.scale - 2)).nearest? tie closed low middle (middle + 2) |>.map (Decimal.mk · k)
  hit.getD ⟨0, 0⟩

end Double

end FlowPlan
