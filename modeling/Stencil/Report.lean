import Stencil.Diagnostic
import Stencil.Json
/-!
# Reports

A list of diagnostics as lines of text with a summary, or as a JSON document.
-/

namespace Stencil

inductive ReportFormat where
  | text
  | json
  deriving DecidableEq, Repr

def ReportFormat.ofName (name : String) : ReportFormat := if name == "json" then json else text

namespace Report

def correctedCount (ds : List Diagnostic) : Nat := (ds.filter (·.corrected)).length

/-! ## Text -/

def counted (n : Nat) (singular plural : String) : String :=
  let noun := if n == 1 then singular else plural
  s!"{n} {noun}"

def line (d : Diagnostic) : String := if d.corrected then d.line ++ " [fixed]" else d.line

def summary (ds : List Diagnostic) (fileCount : Nat) : String :=
  let files := counted fileCount "file" "files"
  let found := counted ds.length "match" "matches"
  let corrected := correctedCount ds
  let fixed := if corrected == 0 then "" else s!", {corrected} fixed"
  s!"{files} inspected, {found} found{fixed}"

def text (ds : List Diagnostic) (fileCount : Nat) : String :=
  String.join (ds.map fun d => line d ++ "\n") ++ "\n" ++ summary ds fileCount ++ "\n"

/-! ## JSON -/

def captures (m : NameMap String) : Json :=
  .object (m.entries.map fun (name, value) => (name, .string value))

def entry (d : Diagnostic) : Json :=
  let replacement :=
    match d.replacement with
    | some value => [("replacement", .string value)]
    | none => []
  .object <|
    [("path", .string d.path),
      ("line", .number d.location.line),
      ("column", .number d.location.column),
      ("severity", .string d.severity.name),
      ("rule", .string d.rule),
      ("message", .string d.message),
      ("matched", .string d.matched),
      ("captures", captures d.captures)] ++
    replacement ++ [("corrected", .bool d.corrected)]

def document (ds : List Diagnostic) (fileCount : Nat) : Json :=
  .object [
    ("metadata", .object [
      ("files_inspected", .number fileCount),
      ("match_count", .number ds.length),
      ("corrected_count", .number (correctedCount ds))]),
    ("matches", .array (ds.map entry))]

def json (ds : List Diagnostic) (fileCount : Nat) : String :=
  (document ds fileCount).pretty ++ "\n"

def render (format : ReportFormat) (ds : List Diagnostic) (fileCount : Nat) : String :=
  match format with
  | .text => text ds fileCount
  | .json => json ds fileCount

end Report

end Stencil
