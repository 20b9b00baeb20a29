/-!
# Notices

What an operation has to say while it runs, apart from its result.
-/

namespace FlowPlan

/-- How much a notice matters. -/
inductive Level
  | debug
  | info
  | warning
  deriving DecidableEq, Repr

def Level.text : Level → String
  | .debug => "DEBUG"
  | .info => "INFO"
  | .warning => "WARN"

/-- A line of the log. -/
structure Notice where
  level : Level
  message : String
  deriving DecidableEq, Repr

namespace Notice

def debug (message : String) : Notice := ⟨.debug, message⟩

def info (message : String) : Notice := ⟨.info, message⟩

def warning (message : String) : Notice := ⟨.warning, message⟩

/-- The notice as a line. -/
def line (n : Notice) : String :=
  n.level.text ++ " " ++ n.message

end Notice

end FlowPlan
