/-!
# Sets of code points

A `CodePoints` is a set of code points, given by its ranges in increasing order. One of them is the white space of Unicode 17, and
a text that holds nothing else is blank.
-/

namespace FlowPlan.Text

/-- Ranges of code points, first and last, in increasing order. -/
structure CodePoints where
  ranges : List (Nat × Nat)

namespace CodePoints

/-- Whether one of the ranges holds `c`. The order of the ranges lets the search end early. -/
def inRanges (c : Nat) : List (Nat × Nat) → Bool
  | [] => false
  | (first, last) :: rest => if c < first then false else c ≤ last || inRanges c rest

/-- Whether a character is in the set. -/
def contains (s : CodePoints) (c : Char) : Bool :=
  inRanges c.toNat s.ranges

end CodePoints

/-! ## White space -/

/-- The code points of white space. -/
def blank : CodePoints where
  ranges := [
    (0x9, 0xd), (0x20, 0x20), (0x85, 0x85), (0xa0, 0xa0), (0x1680, 0x1680), (0x2000, 0x200a), (0x2028, 0x2029),
    (0x202f, 0x202f), (0x205f, 0x205f), (0x3000, 0x3000)]

def isBlankChar (c : Char) : Bool :=
  blank.contains c

/-- Whether a text holds nothing but white space. -/
def isBlank (s : String) : Bool :=
  s.toList.all isBlankChar

end FlowPlan.Text
