/-!
# Streams of random words

`Stream.ofSeed` expands a 64-bit seed into a key by a small congruential generator, and the key into a stream of 32-bit words by
the ChaCha block function with twelve rounds.
-/

namespace FlowPlan.Random

/-! ## The key -/

/-- One step of the generator behind the key. -/
def advance (state : UInt64) : UInt64 :=
  state * 6364136223846793005 + 11634580027462260723

/-- A word rotated to the right. -/
def rotateRight (x amount : UInt32) : UInt32 :=
  (x >>> amount) ||| (x <<< (32 - amount))

/-- The output of the generator in a state. -/
def keyWord (state : UInt64) : UInt32 :=
  rotateRight ((((state >>> 18) ^^^ state) >>> 27).toUInt32) (state >>> 59).toUInt32

/-- So many words of a key after a state. -/
def keyWords : Nat → UInt64 → List UInt32
  | 0, _ => []
  | n + 1, state =>
    let state := advance state
    keyWord state :: keyWords n state

/-! ## Blocks -/

/-- A word rotated to the left. -/
def rotateLeft (x amount : UInt32) : UInt32 :=
  (x <<< amount) ||| (x >>> (32 - amount))

/-- Sixteen words. -/
abbrev Block := Vector UInt32 16

/-- Mixes four words of a block. -/
def quarterRound (a b c d : Fin 16) (block : Block) : Block :=
  let x := block[a] + block[b]
  let w := rotateLeft (block[d] ^^^ x) 16
  let z := block[c] + w
  let y := rotateLeft (block[b] ^^^ z) 12
  let x := x + y
  let w := rotateLeft (w ^^^ x) 8
  let z := z + w
  let y := rotateLeft (y ^^^ z) 7
  (((block.set a x).set b y).set c z).set d w

/-- Mixes the columns of a block, then its diagonals. -/
def doubleRound (block : Block) : Block :=
  block |> quarterRound 0 4 8 12 |> quarterRound 1 5 9 13 |> quarterRound 2 6 10 14 |> quarterRound 3 7 11 15
    |> quarterRound 0 5 10 15 |> quarterRound 1 6 11 12 |> quarterRound 2 7 8 13 |> quarterRound 3 4 9 14

/-- Applies a function so many times. -/
def iterate {α : Type} (f : α → α) : Nat → α → α
  | 0, a => a
  | n + 1, a => iterate f n (f a)

/-- The words of a block before mixing: four constants, the key, and the number of the block. -/
def initialBlock (key : List UInt32) (number : Nat) : Block :=
  let words := [0x61707865, 0x3320646e, 0x79622d32, 0x6b206574] ++ key ++ [.ofNat number, .ofNat (number / Nat.pow 2 32), 0, 0]
  Vector.ofFn fun i => words.getD i 0

/-- The words of the stream in a block. -/
def blockWords (key : List UInt32) (number : Nat) : List UInt32 :=
  let start := initialBlock key number
  let mixed := iterate doubleRound 6 start
  (List.finRange 16).map fun i => mixed[i] + start[i]

/-! ## Streams -/

/-- The words that are left of a block, and the number of the next block. -/
structure Stream where
  key : List UInt32
  nextBlock : Nat
  words : List UInt32
  deriving Repr

namespace Stream

/-- The stream of a seed. -/
def ofSeed (seed : Nat) : Stream where
  key := keyWords 8 (.ofNat seed)
  nextBlock := 0
  words := []

/-- The next word, as a number, and the stream behind it. -/
def next (s : Stream) : Nat × Stream :=
  match s.words with
  | word :: rest => (word.toNat, { s with words := rest })
  | [] =>
    match blockWords s.key s.nextBlock with
    | word :: rest => (word.toNat, { s with nextBlock := s.nextBlock + 1, words := rest })
    | [] => (0, s)

end Stream

end FlowPlan.Random
