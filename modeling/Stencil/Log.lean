/-!
# Log lines

What a run has to say beside its report.
-/

namespace Stencil

inductive LogLevel where
  | info
  | warning
  | error
  deriving DecidableEq, Repr

def LogLevel.label : LogLevel → String
  | info => "INFO"
  | warning => "WARN"
  | error => "ERROR"

structure LogLine where
  level : LogLevel
  text : String
  deriving DecidableEq, Repr

def LogLine.shown (l : LogLine) : String := s!"{l.level.label}: {l.text}"

end Stencil
