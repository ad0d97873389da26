import Stencil.Json
import Stencil.Rule.Basic
/-!
# Rule listings

The rules as a table or as a JSON document.
-/

namespace Stencil

structure RuleEntry where
  name : String
  severity : String
  pattern : String
  rewrite : Option String
  holes : List String
  deriving DecidableEq, Repr

def Rule.entry (r : Rule) : RuleEntry where
  name := r.name
  severity := r.severity.name
  pattern := r.pattern.source
  rewrite := r.template.map (·.source)
  holes := r.pattern.holeNames

namespace RuleEntry

/-! ## Table -/

def padded (width : Nat) (text : String) : String :=
  text ++ String.ofList (List.replicate (width - text.length) ' ')

def row (name severity fix pattern : String) : String :=
  s!"{padded 24 name} {padded 10 severity} {padded 6 fix} {pattern}\n"

def oneLine (text : String) : String :=
  String.join (text.toList.map fun c => if c == '\n' then "\\n" else c.toString)

def tableRow (e : RuleEntry) : String :=
  row e.name e.severity (if e.rewrite.isSome then "yes" else "-") (oneLine e.pattern)

def table (entries : List RuleEntry) : String :=
  let fixable := (entries.filter (·.rewrite.isSome)).length
  row "Name" "Severity" "Fix" "Pattern" ++
    String.ofList (List.replicate 72 '-') ++ "\n" ++
    String.join (entries.map tableRow) ++
    s!"\n{entries.length} rules, {fixable} with rewrites\n"

/-! ## JSON -/

def toJson (e : RuleEntry) : Json :=
  .object [
    ("name", .string e.name),
    ("severity", .string e.severity),
    ("pattern", .string e.pattern),
    ("rewrite", match e.rewrite with
      | some text => .string text
      | none => .null),
    ("holes", .array (e.holes.map .string))]

def json (entries : List RuleEntry) : String :=
  (Json.array (entries.map toJson)).pretty ++ "\n"

end RuleEntry

end Stencil
