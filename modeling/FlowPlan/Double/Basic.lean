/-!
# Binary floating point numbers

A `Double` is a 64-bit binary floating point number, kept by its bits: one sign bit, eleven bits of exponent and 52 bits of
fraction. Keeping the bits keeps everything an artifact can hold, the payload of a "not a number" included, and makes every
operation a computation on natural numbers.
-/

namespace FlowPlan

/-- A 64-bit binary floating point number, by its bits. -/
structure Double where
  bits : UInt64
  deriving DecidableEq, Repr, Inhabited

namespace Double

/-- The sign bit, apart. -/
def isNegative (x : Double) : Bool :=
  Nat.pow 2 63 ≤ x.bits.toNat

/-- All bits but the sign. -/
def magnitude (x : Double) : Nat :=
  x.bits.toNat % Nat.pow 2 63

/-- The eleven bits of exponent. -/
def exponentField (x : Double) : Nat :=
  x.magnitude / Nat.pow 2 52

/-- The 52 bits of fraction. -/
def fractionField (x : Double) : Nat :=
  x.magnitude % Nat.pow 2 52

/-- The magnitude of infinity: exponent bits all set, no fraction. -/
def infinityMagnitude : Nat := 2047 * Nat.pow 2 52

def isNaN (x : Double) : Bool :=
  infinityMagnitude < x.magnitude

def isInfinite (x : Double) : Bool :=
  x.magnitude = infinityMagnitude

def isFinite (x : Double) : Bool :=
  x.magnitude < infinityMagnitude

def isZero (x : Double) : Bool :=
  x.magnitude = 0

/-- The number with the given sign and remaining bits. -/
def ofMagnitude (negative : Bool) (magnitude : Nat) : Double :=
  ⟨UInt64.ofNat ((if negative then Nat.pow 2 63 else 0) + magnitude)⟩

def zero : Double := ofMagnitude false 0

/-- The same magnitude with the other sign. -/
def neg (x : Double) : Double :=
  ofMagnitude (!x.isNegative) x.magnitude

/-- The integer `m` of a finite magnitude `m * 2 ^ q`. -/
def significand (x : Double) : Nat :=
  if x.exponentField = 0 then x.fractionField else Nat.pow 2 52 + x.fractionField

/-- The exponent `q` of a finite magnitude `m * 2 ^ q`. -/
def scale (x : Double) : Int :=
  (max x.exponentField 1 : Nat) - 1075

/-- Numbers compare by value: zero equals its negative, and "not a number" equals nothing. -/
def equal (x y : Double) : Bool :=
  !x.isNaN && !y.isNaN && (x.bits == y.bits || (x.isZero && y.isZero))

end Double

end FlowPlan
