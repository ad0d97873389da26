import Stencil.NameMap
import Stencil.Source
/-!
# Diagnostics

What a rule has to say about one match.
-/

namespace Stencil

/-! ## Severity -/

inductive Severity where
  | convention
  | warning
  | error
  | fatal
  deriving DecidableEq, Repr

namespace Severity

def letter : Severity → Char
  | convention => 'C'
  | warning => 'W'
  | error => 'E'
  | fatal => 'F'

def name : Severity → String
  | convention => "convention"
  | warning => "warning"
  | error => "error"
  | fatal => "fatal"

def rank : Severity → Nat
  | convention => 0
  | warning => 1
  | error => 2
  | fatal => 3

def ofString? (text : String) : Option Severity :=
  let lower := text.toLower
  [convention, warning, error, fatal].find? fun s =>
    lower == s.name || lower == s.letter.toLower.toString

end Severity

/-! ## Diagnostics -/

structure Diagnostic where
  path : String
  location : Location
  severity : Severity
  rule : String
  message : String
  matched : String
  captures : NameMap String
  /-- What the matched text is to be replaced by, if the rule says so. -/
  replacement : Option String
  corrected : Bool
  deriving DecidableEq, Repr

namespace Diagnostic

def line (d : Diagnostic) : String :=
  s!"{d.path}:{d.location.line}:{d.location.column}: {d.severity.letter}: {d.rule}: {d.message}"

def le (d e : Diagnostic) : Bool :=
  d.path < e.path ||
    (d.path == e.path &&
      (d.location.line < e.location.line ||
        (d.location.line == e.location.line && d.location.column ≤ e.location.column)))

/-- In order, diagnostics at one place staying as they were. -/
def sort (ds : List Diagnostic) : List Diagnostic := ds.mergeSort le

def matchedRules (ds : List Diagnostic) : List String :=
  ((ds.map (·.rule)).mergeSort (· ≤ ·)).eraseDups

end Diagnostic

end Stencil
