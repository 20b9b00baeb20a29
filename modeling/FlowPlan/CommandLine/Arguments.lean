/-!
# Arguments of commands

A command has options and operands. An option goes by its name behind two hyphens, and perhaps by a letter behind one. The value
of an option stands in the same argument, behind an equals sign or right behind the letter, or is the next argument, which then
must not look like an option. Behind the argument `--` all are operands. The arguments are read in order, and the first one at
fault decides; no option may be given twice.
-/

namespace FlowPlan.CommandLine

/-- Why a command does not run. -/
inductive Stop
  /-- it is asked how it is used -/
  | help
  /-- it is asked for its version -/
  | version
  | unknownOption (argument : String)
  | repeatedOption (name : String)
  | missingValue (name : String)
  | unexpectedValue (name : String)
  | badValue (name value : String)
  | missingOperand (name : String)
  | extraOperand (argument : String)
  deriving DecidableEq, Repr

/-- What an option does to the settings of a command. -/
inductive Effect (α : Type)
  | stop (s : Stop)
  | flag (set : α → α)
  /-- takes a value, unless it is refused -/
  | value (set : String → α → Option α)

/-- An option of a command. -/
structure Key (α : Type) where
  name : String
  letter : Option Char := none
  effect : Effect α

/-- What the arguments of a command are: its options, and what an operand does to its settings, unless it is one too many. -/
structure Grammar (α : Type) where
  keys : List (Key α)
  operand : String → α → Option α

/-- A reading of arguments under way. -/
structure Reading (α : Type) where
  settings : α
  /-- the names of the options that were given -/
  given : List String := []
  /-- an option that waits for its value -/
  waiting : Option (String × (String → α → Option α)) := none
  onlyOperands : Bool := false

namespace Grammar

variable {α : Type} (g : Grammar α)

/-- The options that every command has. -/
def commonKeys : List (Key α) := [
  { name := "help", letter := some 'h', effect := .stop .help },
  { name := "version", letter := some 'V', effect := .stop .version }]

/-- The option that satisfies a test. -/
def key? (test : Key α → Bool) : Option (Key α) :=
  (g.keys ++ commonKeys).find? test

/-- Gives a value to an option. -/
def setValue (name : String) (set : String → α → Option α) (value : String) (r : Reading α) : Except Stop (Reading α) :=
  match set value r.settings with
  | some settings => .ok { r with settings := settings, waiting := none }
  | none => .error (.badValue name value)

/-- Marks an option as given. -/
def mark (name : String) (r : Reading α) : Except Stop (Reading α) :=
  if r.given.contains name then .error (.repeatedOption name) else .ok { r with given := name :: r.given }

/-- An option with the value that stands in its own argument, if there is one. -/
def useKey (key : Key α) (attached : Option String) (r : Reading α) : Except Stop (Reading α) := do
  match key.effect, attached with
  | .stop s, none => throw s
  | .flag set, none => do
    let r ← mark key.name r
    return { r with settings := set r.settings }
  | .value set, some value => do setValue key.name set value (← mark key.name r)
  | .value set, none => do return { ← mark key.name r with waiting := some (key.name, set) }
  | _, some _ => throw (.unexpectedValue key.name)

/-- What stands behind two hyphens: a name and, behind the first equals sign, a value. -/
def readName (body : List Char) (r : Reading α) : Except Stop (Reading α) :=
  let name := String.ofList (body.takeWhile (· ≠ '='))
  match g.key? (·.name == name) with
  | none => .error (.unknownOption name)
  | some key =>
    match body.dropWhile (· ≠ '=') with
    | [] => useKey key none r
    | _ :: value => useKey key (some (String.ofList value)) r

/-- The value behind a letter; one equals sign in front of it does not count. -/
def valueBehindLetter : List Char → Option String
  | [] => none
  | '=' :: rest => some (String.ofList rest)
  | value => some (String.ofList value)

/-- What stands behind one hyphen: letters, up to the first one that takes a value. -/
def readLetters (r : Reading α) : List Char → Except Stop (Reading α)
  | [] => .ok r
  | letter :: rest =>
    match g.key? (·.letter == some letter) with
    | none => .error (.unknownOption letter.toString)
    | some key =>
      match key.effect with
      | .value _ => useKey key (valueBehindLetter rest) r
      | _ => do readLetters (← useKey key none r) rest

/-- An argument that does not look like an option: the value that is waited for, or an operand. -/
def readPlain (argument : String) (r : Reading α) : Except Stop (Reading α) :=
  match r.waiting with
  | some (name, set) => setValue name set argument r
  | none =>
    match g.operand argument r.settings with
    | some settings => .ok { r with settings := settings }
    | none => .error (.extraOperand argument)

/-- The next argument. -/
def readNext (r : Reading α) (argument : String) : Except Stop (Reading α) :=
  if r.onlyOperands then g.readPlain argument r
  else
    match argument.toList, r.waiting with
    | '-' :: _ :: _, some (name, _) => .error (.missingValue name)
    | ['-', '-'], none => .ok { r with onlyOperands := true }
    | '-' :: '-' :: body, none => g.readName body r
    | '-' :: c :: letters, none => g.readLetters r (c :: letters)
    | _, _ => g.readPlain argument r

/-- The settings that arguments make of initial ones. -/
def read (settings : α) (arguments : List String) : Except Stop α := do
  let r ← arguments.foldlM g.readNext { settings := settings }
  match r.waiting with
  | some (name, _) => throw (.missingValue name)
  | none => return r.settings

end Grammar

/-- A number below `2 ^ 64` in decimal digits, with a plus sign in front or not. -/
def number? (s : String) : Option Nat :=
  let digits := match s.toList with
    | '+' :: rest => rest
    | digits => digits
  if digits.isEmpty || !digits.all Char.isDigit then none
  else
    let n := digits.foldl (fun n c => 10 * n + (c.toNat - '0'.toNat)) 0
    if n < Nat.pow 2 64 then some n else none

end FlowPlan.CommandLine
