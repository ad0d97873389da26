import Stencil.Edit
import Stencil.Rule.Basic
import Stencil.Source
/-!
# Linting one source

Every rule that is for the source is matched against it.  When fixing, the
rewrites become edits, and a diagnostic counts as corrected if its edit is among
those that are kept.
-/

namespace Stencil

structure LintOptions where
  overlapping : Bool
  fix : Bool
  deriving DecidableEq, Repr

inductive LintError where
  | notUtf8 (path : String) (fault : Utf8Fault)
  | target (error : TargetError)
  deriving DecidableEq, Repr

def LintError.message : LintError → String
  | notUtf8 path fault => s!"{path} is not valid UTF-8: {fault.message}"
  | target e => e.message

structure Finding where
  span : Span
  rule : Nat
  diagnostic : Diagnostic
  /-- Why the match has no rewrite although the rule has a template. -/
  failure : Option UnboundHole
  deriving DecidableEq, Repr

structure LintResult where
  diagnostics : List Diagnostic
  /-- The content after fixing, if fixing changes it. -/
  fixed : Option (List UInt8)
  logs : List LogLine
  deriving DecidableEq, Repr

namespace Finding

def ofAlignment (source : SourceFile) (t : Target) (index : Nat) (rule : Rule) (a : Alignment) :
    Finding :=
  let m := a.toMatch t
  let rewrite : Option (Except UnboundHole String) := rule.template.map (·.fill m.bindings)
  {
    span := m.span
    rule := index
    failure := match rewrite with
      | some (.error e) => some e
      | _ => none
    diagnostic := {
      path := source.path
      location := source.location m.span.start
      severity := rule.severity
      rule := rule.name
      message := rule.message
      matched := a.text t
      captures := m.bindings
      replacement := match rewrite with
        | some (.ok text) => some text
        | _ => none
      corrected := false
    }
  }

def edit? (f : Finding) : Option Edit :=
  f.diagnostic.replacement.map fun replacement =>
    ⟨f.span.start, f.span.stop, replacement, f.rule⟩

def settled (kept : EditSet) (f : Finding) : Diagnostic :=
  { f.diagnostic with
    corrected := f.diagnostic.replacement.isSome && kept.contains f.span.start f.rule }

def log? (source : SourceFile) (f : Finding) : Option LogLine :=
  f.failure.map fun e =>
    ⟨.warning, s!"{source.path}: rule `{f.diagnostic.rule}`: {e.message}"⟩

end Finding

/-! ## Linting -/

def findingsFrom (source : SourceFile) (t : Target) (overlapping : Bool) (index : Nat) :
    List Rule → List Finding
  | [] => []
  | rule :: rest =>
    let found := if rule.appliesTo source.path then rule.matcher.alignments t overlapping 0 else []
    found.map (Finding.ofAlignment source t index rule) ++
      findingsFrom source t overlapping (index + 1) rest

def settle (source : SourceFile) (fix : Bool) (findings : List Finding) : LintResult :=
  let edits := findings.filterMap Finding.edit?
  let logs := findings.filterMap (Finding.log? source)
  if fix && !edits.isEmpty then
    let kept := EditSet.ofList edits
    let content := kept.apply source.content
    {
      diagnostics := Diagnostic.sort (findings.map (Finding.settled kept))
      fixed := if content == source.content then none else some content
      logs
    }
  else { diagnostics := Diagnostic.sort (findings.map (·.diagnostic)), fixed := none, logs }

def SourceFile.target (source : SourceFile) : Except LintError Target :=
  match source.text? with
  | .error fault => .error (.notUtf8 source.path fault)
  | .ok cs => (Target.tokenize (String.ofList cs)).mapError .target

def lintSource (source : SourceFile) (rules : List Rule) (options : LintOptions) :
    Except LintError LintResult :=
  match source.target with
  | .error e => .error e
  | .ok t => .ok (settle source options.fix (findingsFrom source t options.overlapping 0 rules))

end Stencil
