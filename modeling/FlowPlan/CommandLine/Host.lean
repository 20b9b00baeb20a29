import FlowPlan.CommandLine.Arguments
import FlowPlan.Files

/-!
# What commands run on

A `Host` lends a command its files, a clock and a source of seeds; an `Outcome` is what the command leaves behind besides files.
-/

namespace FlowPlan.CommandLine

/-- What a command gets from outside, in a monad `m`. -/
structure Host (m : Type → Type) where
  disk : Disk m
  /-- the time since some moment, in nanoseconds -/
  clock : m Nat
  /-- a new seed, below `2 ^ 64` -/
  seed : m Nat

/-- The exit code of a command, and what it prints. -/
structure Outcome where
  code : Nat := 0
  out : String := ""
  err : String := ""
  deriving DecidableEq, Repr

/-- What is wrong with the arguments of a command, in a sentence. -/
def Stop.message : Stop → String
  | .help => "help was asked for"
  | .version => "the version was asked for"
  | .unknownOption argument => s!"there is no option '{argument}'"
  | .repeatedOption name => s!"option '{name}' is given twice"
  | .missingValue name => s!"option '{name}' lacks its value"
  | .unexpectedValue name => s!"option '{name}' takes no value"
  | .badValue name value => s!"option '{name}' cannot be '{value}'"
  | .missingOperand name => s!"{name} is missing"
  | .extraOperand argument => s!"argument '{argument}' is one too many"

/-- The version of the commands. -/
def versionText : String := "0.1.0"

/-- How a command ends that does not run: requests for a text succeed, and faults in the arguments have a code of their own. -/
def Stop.outcome (usage : String) : Stop → Outcome
  | .help => { out := usage ++ "\n" }
  | .version => { out := versionText ++ "\n" }
  | stop => { code := 2, err := "Error: " ++ stop.message ++ "\n\n" ++ usage ++ "\n" }

end FlowPlan.CommandLine
