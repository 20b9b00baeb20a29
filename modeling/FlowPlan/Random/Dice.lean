import FlowPlan.Double.Round
import FlowPlan.Random.Stream

/-!
# Random decisions

`Dice` are what random decisions are made with: a coin that falls with some probability, and a pick from a range of numbers. Any
dice whose picks stay in their range will do for a generator; `Stream.dice` are those of a stream of random words.
-/

namespace FlowPlan.Random

/-- Random decisions over a state `σ`. -/
structure Dice (σ : Type) where
  /-- true with so many tenths of probability -/
  flip : (tenths : Nat) → σ → Bool × σ
  /-- a number from `low` to `high`, both included -/
  pick : (low high : Nat) → σ → Nat × σ

/-- Picks stay in their range. -/
def Dice.Fair {σ : Type} (d : Dice σ) : Prop :=
  ∀ low high s, low ≤ high → low ≤ (d.pick low high s).1 ∧ (d.pick low high s).1 ≤ high

namespace Stream

/-- The whole part of `2 ^ 64` times a probability, which is the number nearest to so many tenths. -/
def threshold (tenths : Nat) : Nat :=
  let (num, den) := (Double.ofRatio false tenths 10).ratio
  num * Nat.pow 2 64 / den

/-- Compares two words, the low one first, with the threshold of a probability. -/
def flip (tenths : Nat) (s : Stream) : Bool × Stream :=
  let (low, s) := s.next
  let (high, s) := s.next
  (low + high * Nat.pow 2 32 < threshold tenths, s)

/-- Scales a word to the range; when the part that is cut off comes near to a carry, a second word decides it. -/
def pick (low high : Nat) (s : Stream) : Nat × Stream :=
  let count := high - low + 1
  let (word, s) := s.next
  let scaled := word * count
  let whole := scaled / Nat.pow 2 32
  let part := scaled % Nat.pow 2 32
  if Nat.pow 2 32 - count < part then
    let (word, s) := s.next
    let carry := if Nat.pow 2 32 ≤ part + word * count / Nat.pow 2 32 then 1 else 0
    (low + whole + carry, s)
  else (low + whole, s)

/-- The decisions of a stream. -/
def dice : Dice Stream where
  flip := flip
  pick := pick

end Stream

end FlowPlan.Random
