import FlowPlan.CommandLine.Compile
import FlowPlan.CommandLine.Generate

/-!
# The program

`compile` and `generate` on the files, the clock and the randomness of the machine. The first argument names the command.
-/

namespace FlowPlan.Program

/-- The number of an error, which some parts of the system report as a negative word. -/
def numberOf (code : UInt32) : Nat :=
  if code.toNat < Nat.pow 2 31 then code.toNat else Nat.pow 2 32 - code.toNat

/-- The fault that an error of the system stands for. -/
def faultOf : IO.Error → FileFault
  | .alreadyExists _ number details => .ofNumber (numberOf number) details
  | .otherError number details => .ofNumber (numberOf number) details
  | .resourceBusy number details => .ofNumber (numberOf number) details
  | .resourceVanished number details => .ofNumber (numberOf number) details
  | .unsupportedOperation number details => .ofNumber (numberOf number) details
  | .hardwareFault number details => .ofNumber (numberOf number) details
  | .unsatisfiedConstraints number details => .ofNumber (numberOf number) details
  | .illegalOperation number details => .ofNumber (numberOf number) details
  | .protocolError number details => .ofNumber (numberOf number) details
  | .timeExpired number details => .ofNumber (numberOf number) details
  | .interrupted _ number details => .ofNumber (numberOf number) details
  | .noFileOrDirectory _ number details => .ofNumber (numberOf number) details
  | .invalidArgument _ number details => .ofNumber (numberOf number) details
  | .permissionDenied _ number details => .ofNumber (numberOf number) details
  | .resourceExhausted _ number details => .ofNumber (numberOf number) details
  | .inappropriateType _ number details => .ofNumber (numberOf number) details
  | .noSuchThing _ number details => .ofNumber (numberOf number) details
  | .unexpectedEof => .other 0 "unexpected end of file"
  | .userError text => .other 0 text

/-- The result of an action on a path, or its fault. -/
def attempt {α : Type} (path : String) (act : IO α) : IO (Except FileFault α) := do
  if path.toList.contains (.ofNat 0) then return .error .invalidPath
  try
    return .ok (← act)
  catch error =>
    return .error (faultOf error)

/-- The files of the machine. -/
def disk : Disk IO where
  read path := do return (← attempt path (IO.FS.readBinFile path)).map (·.toList)
  write path content := attempt path (IO.FS.writeBinFile path (ByteArray.mk content.toArray))
  makeDirectory path := attempt path (IO.FS.createDirAll path)

/-- The machine as a host. Bytes of its randomness make a seed. -/
def machine : CommandLine.Host IO where
  disk := disk
  clock := IO.monoNanosNow
  seed := do return (← IO.getRandomBytes 8).toList.foldl (fun n b => 256 * n + b.toNat) 0

/-- How the program is used. -/
def usage : String :=
  CommandLine.Compile.usage ++ "\n" ++ CommandLine.Generate.usage

/-- Runs the command that the first argument names. -/
def run : List String → IO CommandLine.Outcome
  | "compile" :: arguments => CommandLine.Compile.run machine arguments
  | "generate" :: arguments => CommandLine.Generate.run machine arguments
  | "--help" :: _ => return CommandLine.Stop.help.outcome usage
  | "--version" :: _ => return CommandLine.Stop.version.outcome usage
  | [] => return (CommandLine.Stop.missingOperand "COMMAND").outcome usage
  | argument :: _ => return (CommandLine.Stop.extraOperand argument).outcome usage

end FlowPlan.Program

/-- Prints what a command leaves to print and ends with its exit code. -/
def main (arguments : List String) : IO UInt32 := do
  let outcome ← FlowPlan.Program.run arguments
  (← IO.getStdout).putStr outcome.out
  (← IO.getStderr).putStr outcome.err
  return .ofNat outcome.code
