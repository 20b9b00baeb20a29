/-!
# UTF-8

Texts as bytes. Encoding is the one of `String`; decoding tells, for bytes that are no text, how many of them are, and how long
the sequence is that spoils them.
-/

namespace FlowPlan.Text

/-- The bytes of a text. -/
def encodeUtf8 (s : String) : List UInt8 :=
  s.toUTF8.toList

/-- Why bytes are no text: the length of the longest text in front of them, and the length of the sequence that follows it and
belongs to no text, or nothing when the bytes end inside a character. -/
structure Utf8Fault where
  validUpTo : Nat
  length : Option Nat
  deriving DecidableEq, Repr

/-- Where decoding stands between two bytes. -/
inductive Utf8State
  /-- between characters -/
  | between
  /-- inside a character: how many bytes are seen and owed, the bounds of the next one, and the bits so far -/
  | inside (seen owed low high bits : Nat)
  deriving DecidableEq, Repr

/-- The state after the first byte of a character of several bytes. -/
def Utf8State.afterLead? (b : Nat) : Option Utf8State :=
  if 0xC2 ≤ b ∧ b ≤ 0xDF then some (.inside 1 1 0x80 0xBF (b - 0xC0))
  else if b = 0xE0 then some (.inside 1 2 0xA0 0xBF (b - 0xE0))
  else if b = 0xED then some (.inside 1 2 0x80 0x9F (b - 0xE0))
  else if 0xE1 ≤ b ∧ b ≤ 0xEF then some (.inside 1 2 0x80 0xBF (b - 0xE0))
  else if b = 0xF0 then some (.inside 1 3 0x90 0xBF (b - 0xF0))
  else if b = 0xF4 then some (.inside 1 3 0x80 0x8F (b - 0xF0))
  else if 0xF1 ≤ b ∧ b ≤ 0xF3 then some (.inside 1 3 0x80 0xBF (b - 0xF0))
  else none

/-- Decodes on from a state; `valid` bytes in front are the characters `read`, the latest one first. -/
def decodeUtf8From (valid : Nat) (read : List Char) : Utf8State → List UInt8 → Except Utf8Fault (List Char)
  | .between, [] => .ok read.reverse
  | .inside .., [] => .error ⟨valid, none⟩
  | .between, byte :: rest =>
    let b := byte.toNat
    if b < 0x80 then decodeUtf8From (valid + 1) (.ofNat b :: read) .between rest
    else
      match Utf8State.afterLead? b with
      | some state => decodeUtf8From valid read state rest
      | none => .error ⟨valid, some 1⟩
  | .inside seen owed low high bits, byte :: rest =>
    let b := byte.toNat
    if low ≤ b ∧ b ≤ high then
      let bits := bits * 64 + (b - 0x80)
      if owed = 1 then decodeUtf8From (valid + seen + 1) (.ofNat bits :: read) .between rest
      else decodeUtf8From valid read (.inside (seen + 1) (owed - 1) 0x80 0xBF bits) rest
    else .error ⟨valid, some seen⟩

/-- The text of bytes. -/
def decodeUtf8 (bytes : List UInt8) : Except Utf8Fault String :=
  String.ofList <$> decodeUtf8From 0 [] .between bytes

end FlowPlan.Text
