import FlowPlan.Json.Literal

/-!
# Documents as far as they can be read

A `Doc` is what a text says up to its first fault of grammar. A container that the fault cuts off is left open, and a value
that it cuts off is `broken`, so a reader of the document meets everything before the fault in order.
-/

namespace FlowPlan.Json

/-- A JSON document, complete or cut off at a fault of grammar. -/
inductive Doc
  | null
  | bool (b : Bool)
  | number (literal : Literal)
  /-- A text; nothing when an escape in it names half of a surrogate pair. -/
  | text (s : Option String)
  | list (items : List Doc) (closed : Bool)
  | record (fields : List (Option String × Doc)) (closed : Bool)
  | broken
  deriving Repr

/-- A document, and whether the text ends after it. -/
structure Reading where
  doc : Doc
  ended : Bool
  deriving Repr

namespace Doc

/-! ## Blanks, words and numbers -/

def isBlankChar (c : Char) : Bool :=
  c = ' ' || c = '\n' || c = '\t' || c = '\r'

def skipBlanks (cs : List Char) : List Char :=
  cs.dropWhile isBlankChar

/-- The value of a decimal digit. -/
def digit (c : Char) : Nat :=
  c.toNat - '0'.toNat

/-- The digits in front, and what follows them. -/
def takeDigits (cs : List Char) : List Nat × List Char :=
  ((cs.takeWhile Char.isDigit).map digit, cs.dropWhile Char.isDigit)

/-- The digits before the point: a zero stands alone. -/
def readWhole (cs : List Char) : Option (List Nat × List Char) :=
  match takeDigits cs with
  | ([], _) => none
  | (0 :: _ :: _, _) => none
  | found => some found

/-- The digits after a point; none without a point. -/
def readFraction (cs : List Char) : Option (List Nat × List Char) :=
  match cs with
  | '.' :: rest =>
    match takeDigits rest with
    | ([], _) => none
    | found => some found
  | _ => some ([], cs)

/-- The sign in front of an exponent: whether it is a minus. -/
def readSign : List Char → Bool × List Char
  | '-' :: rest => (true, rest)
  | '+' :: rest => (false, rest)
  | cs => (false, cs)

/-- The exponent and its sign; nothing without the letter `e`. -/
def readExponent (cs : List Char) : Option (Option (Bool × List Nat) × List Char) :=
  match cs with
  | c :: rest =>
    if c = 'e' || c = 'E' then
      let (negative, rest) := readSign rest
      match takeDigits rest with
      | ([], _) => none
      | (digits, rest) => some (some (negative, digits), rest)
    else some (none, cs)
  | [] => some (none, [])

/-- The part of a number after its sign. -/
def readUnsigned (negative : Bool) (cs : List Char) : Option (Literal × List Char) := do
  let (whole, cs) ← readWhole cs
  let (fraction, cs) ← readFraction cs
  let (exponent, cs) ← readExponent cs
  return (⟨negative, whole, fraction, exponent⟩, cs)

/-- A number and what follows it. -/
def readNumber : List Char → Option (Literal × List Char)
  | '-' :: rest => readUnsigned true rest
  | cs => readUnsigned false cs

/-! ## Texts -/

/-- A piece of a text: a character, or a UTF-16 unit given by its number. -/
inductive Piece
  | char (c : Char)
  | unit (n : Nat)

/-- The value of a hexadecimal digit. -/
def hexValue? (c : Char) : Option Nat :=
  if '0' ≤ c && c ≤ '9' then some (c.toNat - '0'.toNat)
  else if 'a' ≤ c && c ≤ 'f' then some (c.toNat - 'a'.toNat + 10)
  else if 'A' ≤ c && c ≤ 'F' then some (c.toNat - 'A'.toNat + 10)
  else none

/-- The number of four hexadecimal digits. -/
def hexValue4? (a b c d : Char) : Option Nat := do
  return (((← hexValue? a) * 16 + (← hexValue? b)) * 16 + (← hexValue? c)) * 16 + (← hexValue? d)

/-- The character that a one-letter escape stands for. -/
def shortEscape? (c : Char) : Option Char :=
  if c = '"' || c = '\\' || c = '/' then some c
  else if c = 'b' then some (.ofNat 8)
  else if c = 'f' then some (.ofNat 12)
  else if c = 'n' then some '\n'
  else if c = 'r' then some '\r'
  else if c = 't' then some '\t'
  else none

/-- The pieces of a text up to its closing quote, put in front of `read` in reverse, and what follows the quote. -/
def readPieces (read : List Piece) : List Char → Option (List Piece × List Char)
  | '"' :: rest => some (read.reverse, rest)
  | '\\' :: 'u' :: a :: b :: c :: d :: rest =>
    match hexValue4? a b c d with
    | some n => readPieces (.unit n :: read) rest
    | none => none
  | '\\' :: c :: rest =>
    match shortEscape? c with
    | some c => readPieces (.char c :: read) rest
    | none => none
  | c :: rest => if c.toNat < 32 || c = '\\' then none else readPieces (.char c :: read) rest
  | [] => none

def isHighSurrogate (n : Nat) : Bool := 0xD800 ≤ n && n < 0xDC00

def isLowSurrogate (n : Nat) : Bool := 0xDC00 ≤ n && n < 0xE000

/-- The characters of the pieces, put in front of `read` in reverse: two surrogates in a row make one character, and a lone
one makes none. -/
def joinPieces (read : List Char) : List Piece → Option (List Char)
  | [] => some read.reverse
  | .char c :: rest => joinPieces (c :: read) rest
  | .unit high :: .unit low :: rest =>
    if isHighSurrogate high then
      if isLowSurrogate low then
        joinPieces (.ofNat (0x10000 + (high - 0xD800) * 0x400 + (low - 0xDC00)) :: read) rest
      else none
    else if isLowSurrogate high then none
    else joinPieces (.ofNat high :: read) (.unit low :: rest)
  | .unit n :: rest =>
    if isHighSurrogate n || isLowSurrogate n then none else joinPieces (.ofNat n :: read) rest

/-- The text of the pieces. -/
def pieceText (pieces : List Piece) : Option String :=
  (joinPieces [] pieces).map String.ofList

/-! ## Values -/

/-- A value, and what follows it when nothing in it is at fault. -/
abbrev Found := Doc × Option (List Char)

mutual

/-- The value in front. The first argument bounds the values that can start in the text; its length is enough. -/
def readValue : Nat → List Char → Found
  | 0, _ => (.broken, none)
  | fuel + 1, cs =>
    match skipBlanks cs with
    | 'n' :: 'u' :: 'l' :: 'l' :: rest => (.null, some rest)
    | 't' :: 'r' :: 'u' :: 'e' :: rest => (.bool true, some rest)
    | 'f' :: 'a' :: 'l' :: 's' :: 'e' :: rest => (.bool false, some rest)
    | '"' :: rest =>
      match readPieces [] rest with
      | some (pieces, rest) => (.text (pieceText pieces), some rest)
      | none => (.broken, none)
    | '[' :: rest =>
      match skipBlanks rest with
      | ']' :: rest => (.list [] true, some rest)
      | rest =>
        match readItems fuel rest with
        | (items, some rest) => (.list items true, some rest)
        | (items, none) => (.list items false, none)
    | '\x7b' :: rest =>
      match skipBlanks rest with
      | '\x7d' :: rest => (.record [] true, some rest)
      | rest =>
        match readFields fuel rest with
        | (fields, some rest) => (.record fields true, some rest)
        | (fields, none) => (.record fields false, none)
    | rest =>
      match readNumber rest with
      | some (literal, rest) => (.number literal, some rest)
      | none => (.broken, none)

/-- One item or more up to the closing bracket, and what follows the bracket. -/
def readItems : Nat → List Char → List Doc × Option (List Char)
  | 0, _ => ([], none)
  | fuel + 1, cs =>
    match readValue fuel cs with
    | (item, none) => ([item], none)
    | (item, some rest) =>
      match skipBlanks rest with
      | ']' :: rest => ([item], some rest)
      | ',' :: rest =>
        match readItems fuel rest with
        | (items, rest) => (item :: items, rest)
      | _ => ([item], none)

/-- One field or more up to the closing brace, and what follows the brace. -/
def readFields : Nat → List Char → List (Option String × Doc) × Option (List Char)
  | 0, _ => ([], none)
  | fuel + 1, cs =>
    match skipBlanks cs with
    | '"' :: rest =>
      match readPieces [] rest with
      | none => ([], none)
      | some (pieces, rest) =>
        let key := pieceText pieces
        match skipBlanks rest with
        | ':' :: rest =>
          match readValue fuel rest with
          | (value, none) => ([(key, value)], none)
          | (value, some rest) =>
            match skipBlanks rest with
            | '\x7d' :: rest => ([(key, value)], some rest)
            | ',' :: rest =>
              match readFields fuel rest with
              | (fields, rest) => ((key, value) :: fields, rest)
            | _ => ([(key, value)], none)
        | _ => ([(key, .broken)], none)
    | _ => ([], none)

end

/-- The document in a text. -/
def read (s : String) : Reading :=
  let cs := s.toList
  match readValue (2 * cs.length + 2) cs with
  | (doc, some rest) => ⟨doc, (skipBlanks rest).isEmpty⟩
  | (doc, none) => ⟨doc, false⟩

end Doc

end FlowPlan.Json
