import FlowPlan.Text.Utf8
import FlowPlan.Double.Basic

/-!
# Words of the artifact format

Integers take one byte up to 250; larger ones have a marker and then two, four or eight bytes, the lowest first. A text is its
length in bytes and its UTF-8 bytes, a floating point number its eight bytes, a truth value or the tag of an optional one byte.
Reading accepts an integer that is written with more bytes than it needs.
-/

namespace FlowPlan.Artifact

/-! ## Writing -/

/-- The lowest bytes of a number, the lowest first. -/
def littleEndian : (width : Nat) → Nat → List UInt8
  | 0, _ => []
  | width + 1, n => UInt8.ofNat (n % 256) :: littleEndian width (n / 256)

def encodeInteger (n : Nat) : List UInt8 :=
  if n ≤ 250 then [UInt8.ofNat n]
  else if n < Nat.pow 2 16 then 251 :: littleEndian 2 n
  else if n < Nat.pow 2 32 then 252 :: littleEndian 4 n
  else 253 :: littleEndian 8 n

def encodeText (s : String) : List UInt8 :=
  let bytes := Text.encodeUtf8 s
  encodeInteger bytes.length ++ bytes

def encodeBool (b : Bool) : List UInt8 :=
  [if b then 1 else 0]

def encodeDouble (x : Double) : List UInt8 :=
  littleEndian 8 x.bits.toNat

/-! ## Reading -/

/-- The integers of the format by the words that they fit into. -/
inductive IntegerType
  | word32
  | word64
  | size
  | word128
  | reserved
  deriving DecidableEq, Repr

def IntegerType.text : IntegerType → String
  | .word32 => "U32"
  | .word64 => "U64"
  | .size => "Usize"
  | .word128 => "U128"
  | .reserved => "Reserved"

/-- Why bytes are no artifact. -/
inductive DecodeFault
  /-- so many bytes are lacking -/
  | unexpectedEnd (lacking : Nat)
  | invalidInteger (expected found : IntegerType)
  | invalidBool (found : Nat)
  | invalidOption (found : Nat)
  | invalidText (fault : Text.Utf8Fault)
  | unknownVariant (found count : Nat)
  deriving DecidableEq, Repr

def DecodeFault.message : DecodeFault → String
  | .unexpectedEnd lacking => "UnexpectedEnd \x7b additional: " ++ toString lacking ++ " \x7d"
  | .invalidInteger expected found =>
    "InvalidIntegerType \x7b expected: " ++ expected.text ++ ", found: " ++ found.text ++ " \x7d"
  | .invalidBool found => s!"InvalidBooleanValue({found})"
  | .invalidOption found =>
    "UnexpectedVariant \x7b type_name: \"Option<T>\", allowed: Range \x7b min: 0, max: 1 \x7d, found: "
      ++ toString found ++ " \x7d"
  | .invalidText fault =>
    let length := match fault.length with
      | some n => s!"Some({n})"
      | none => "None"
    "Utf8 \x7b inner: Utf8Error \x7b valid_up_to: " ++ toString fault.validUpTo ++ ", error_len: " ++ length
      ++ " \x7d \x7d"
  | .unknownVariant found count =>
    s!"OtherString(\"invalid value: integer `{found}`, expected variant index 0 <= i < {count}\")"

/-- Reads something from the front of bytes and gives the bytes behind it. -/
abbrev Reader := StateT (List UInt8) (Except DecodeFault)

namespace Reader

/-- So many bytes. -/
def take (count : Nat) : Reader (List UInt8) := fun bytes =>
  let front := bytes.take count
  if front.length < count then .error (.unexpectedEnd (count - front.length))
  else .ok (front, bytes.drop count)

/-- The number of bytes, the lowest first. -/
def littleEndianValue : List UInt8 → Nat
  | [] => 0
  | b :: rest => b.toNat + 256 * littleEndianValue rest

/-- A number of so many bytes. -/
def word (width : Nat) : Reader Nat :=
  littleEndianValue <$> take width

/-- One byte. -/
def byte : Reader Nat :=
  word 1

/-- The word that is named when the marker of an integer tells of a wider one: a 64-bit integer goes by the name of a 32-bit
one when at least eight bytes follow the marker. -/
def nameOfExpected (expected : IntegerType) (following : List UInt8) : IntegerType :=
  if expected = .word64 && 8 ≤ following.length then .word32 else expected

/-- An integer that fits into the given word. -/
def integer (expected : IntegerType) : Reader Nat := do
  let marker ← byte
  if marker ≤ 250 then return marker
  else if marker = 251 then word 2
  else if marker = 252 then word 4
  else if marker = 253 then
    if expected = .word32 then throw (.invalidInteger expected .word64) else word 8
  else
    let found := if marker = 254 then .word128 else .reserved
    throw (.invalidInteger (nameOfExpected expected (← get)) found)

/-- The length of a list or map. -/
def count : Reader Nat :=
  integer .size

/-- The index of one of so many variants. -/
def variant (variants : Nat) : Reader Nat := do
  let index ← integer .word32
  if index < variants then return index else throw (.unknownVariant index variants)

def text : Reader String := do
  let length ← integer .word64
  let bytes ← take length
  match Text.decodeUtf8 bytes with
  | .ok s => return s
  | .error fault => throw (.invalidText fault)

def bool : Reader Bool := do
  match ← byte with
  | 0 => return false
  | 1 => return true
  | found => throw (.invalidBool found)

def double : Reader Double := do
  return ⟨UInt64.ofNat (← word 8)⟩

/-- Something that may be absent. -/
def optional {α : Type} (item : Reader α) : Reader (Option α) := do
  match ← byte with
  | 0 => return none
  | 1 => return some (← item)
  | found => throw (.invalidOption found)

/-- So many items. -/
def times {α : Type} (item : Reader α) : Nat → Reader (List α)
  | 0 => return []
  | n + 1 => do
    let first ← item
    let rest ← times item n
    return first :: rest

/-- A list with its length in front. -/
def list {α : Type} (item : Reader α) : Reader (List α) := do
  times item (← count)

end Reader

end FlowPlan.Artifact
