import FlowPlan.Json.Basic
import FlowPlan.Double.Text

/-!
# JSON as text

`Json.compact` writes a value without blanks, `Json.pretty` one item a line with two blanks for each level. Numbers have the
fewest digits that read back; only the quote, the backslash and control characters are escaped.
-/

namespace FlowPlan.Json

/-- Floating point numbers from `10 ^ -5` below `10 ^ 16` are written without an exponent, whole ones with `.0`. -/
def style : Style where
  tie := .even
  positional := fun e => -5 ≤ e && e < 16
  wholeMark := ".0"

def Number.text : Number → String
  | .int n => toString n
  | .float x => x.text style

/-- A hexadecimal digit in lower case. -/
def hexDigit (n : Nat) : Char :=
  Nat.digitChar n

/-- One character inside quotes. -/
def escapedChar (c : Char) : List Char :=
  if c = '"' then ['\\', '"']
  else if c = '\\' then ['\\', '\\']
  else if c = '\n' then ['\\', 'n']
  else if c = '\r' then ['\\', 'r']
  else if c = '\t' then ['\\', 't']
  else if c.toNat = 8 then ['\\', 'b']
  else if c.toNat = 12 then ['\\', 'f']
  else if c.toNat < 32 then ['\\', 'u', '0', '0', hexDigit (c.toNat / 16), hexDigit (c.toNat % 16)]
  else [c]

/-- A text in quotes. -/
def quotedText (s : String) : String :=
  "\"" ++ String.ofList (s.toList.flatMap escapedChar) ++ "\""

mutual

/-- A value without blanks. -/
def compact : Json → String
  | .null => "null"
  | .bool true => "true"
  | .bool false => "false"
  | .number n => n.text
  | .text s => quotedText s
  | .list items => "[" ++ String.intercalate "," (compactItems items) ++ "]"
  | .record fields => "\x7b" ++ String.intercalate "," (compactFields fields) ++ "\x7d"
  | .map ⟨keys, _, value⟩ =>
    "\x7b" ++ String.intercalate "," (List.ofFn fun i => quotedText (keys.get i) ++ ":" ++ compact (value i)) ++ "\x7d"

def compactItems : List Json → List String
  | [] => []
  | item :: rest => compact item :: compactItems rest

def compactFields : List (String × Json) → List String
  | [] => []
  | (key, value) :: rest => (quotedText key ++ ":" ++ compact value) :: compactFields rest

end

/-- Lines between brackets, each with the given indentation and a comma after all but the last. -/
def indented (opening closing indent : String) (lines : List String) : String :=
  opening ++ "\n" ++ String.intercalate ",\n" (lines.map (indent ++ "  " ++ ·)) ++ "\n" ++ indent ++ closing

mutual

/-- A value with one item a line, whose lines after the first start with `indent`. -/
def prettyAt (indent : String) : Json → String
  | .list (item :: rest) => indented "[" "]" indent (prettyItems (indent ++ "  ") (item :: rest))
  | .record (field :: rest) => indented "\x7b" "\x7d" indent (prettyFields (indent ++ "  ") (field :: rest))
  | .map ⟨key :: keys, _, value⟩ =>
    indented "\x7b" "\x7d" indent
      (List.ofFn fun i => quotedText ((key :: keys).get i) ++ ": " ++ prettyAt (indent ++ "  ") (value i))
  | value => compact value

def prettyItems (indent : String) : List Json → List String
  | [] => []
  | item :: rest => prettyAt indent item :: prettyItems indent rest

def prettyFields (indent : String) : List (String × Json) → List String
  | [] => []
  | (key, value) :: rest => (quotedText key ++ ": " ++ prettyAt indent value) :: prettyFields indent rest

end

/-- A value with one item a line. -/
def pretty (value : Json) : String :=
  prettyAt "" value

end FlowPlan.Json
