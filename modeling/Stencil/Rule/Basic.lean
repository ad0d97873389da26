import Stencil.Config
import Stencil.Diagnostic
import Stencil.Glob.Set
import Stencil.Log
import Stencil.Pattern.Compile
import Stencil.Rewrite
/-!
# Rules

A rule is a pattern with what is to be said about its matches and, if they are to
be replaced, a template.  A rule that compiles can rewrite each of its matches:
every hole of the template is one of the pattern.
-/

namespace Stencil

/-! ## Errors -/

inductive RuleFault where
  | pattern (text : String) (error : CompileError)
  | unknownKind (kind hole : String)
  | absentHole (hole : String)
  | rewrite (text : String) (error : CompileError)
  | unboundHole (hole : UnboundHole)
  | unknownSeverity (text : String)
  | glob (error : GlobError)
  | globSet (error : GlobSetError)
  deriving DecidableEq, Repr

def RuleFault.message : RuleFault → String
  | pattern text e => s!"invalid pattern `{text}`: {e.message}"
  | unknownKind kind hole => s!"unknown capture kind `{kind}` for hole `{hole}`"
  | absentHole hole => s!"`where` names hole `{hole}`, which the pattern does not contain"
  | rewrite text e => s!"invalid rewrite `{text}`: {e.message}"
  | unboundHole h =>
    s!"rewrite uses hole `{h.name}` (offset {h.offset}) that the pattern never binds"
  | unknownSeverity text => s!"unknown severity `{text}`"
  | glob e => s!"invalid glob `{e.glob}`: {e.message}"
  | globSet e => s!"failed to build glob set: {e.message}"

structure RuleError where
  rule : String
  fault : RuleFault
  deriving DecidableEq, Repr

def RuleError.message (e : RuleError) : String := s!"rule `{e.rule}`: {e.fault.message}"

/-! ## Rules -/

structure Rule where
  name : String
  pattern : Pattern
  template : Option Pattern
  message : String
  severity : Severity
  includes : List Glob
  excludes : List Glob

namespace Rule

def constrained (pattern : Pattern) : List (String × String) → Except RuleFault Pattern
  | [] => .ok pattern
  | (hole, kindName) :: rest =>
    match Vocabulary.builtin.kind? kindName with
    | none => .error (.unknownKind kindName hole)
    | some kind =>
      if pattern.hasHole hole then constrained (pattern.constrain hole kind) rest
      else .error (.absentHole hole)

def compileTemplate (pattern : Pattern) (text : String) : Except RuleFault Pattern :=
  match Pattern.compile text with
  | .error e => .error (.rewrite text e)
  | .ok template =>
    match template.unboundHoles pattern with
    | (h, offset) :: _ => .error (.unboundHole ⟨h.name, offset⟩)
    | [] => .ok template

def parseGlobs : List String → Except RuleFault (List Glob)
  | [] => .ok []
  | text :: rest =>
    match Glob.parse? ⟨true, false⟩ text with
    | .error fault => .error (.glob ⟨text, fault⟩)
    | .ok g => (parseGlobs rest).map (g :: ·)

def compileGlobs (texts : List String) : Except RuleFault (List Glob) :=
  match parseGlobs texts with
  | .error fault => .error fault
  | .ok globs =>
    match Glob.setError? globs with
    | some e => .error (.globSet e)
    | none => .ok globs

def compile (config : RuleConfig) : Except RuleFault Rule := do
  let written ← (Pattern.compile config.pattern).mapError (.pattern config.pattern)
  let pattern ← constrained written config.constraints.entries
  let template ←
    match config.rewrite with
    | none => pure none
    | some text => (compileTemplate pattern text).map some
  let severity ←
    match Severity.ofString? config.severity with
    | some s => pure s
    | none => throw (.unknownSeverity config.severity)
  let includes ← compileGlobs config.includes
  let excludes ← compileGlobs config.excludes
  return {
    name := config.name
    pattern, template, severity, includes, excludes
    message := config.message.getD s!"matches `{config.pattern}`"
  }

def matcher (r : Rule) : Matcher := .ofPattern .builtin r.pattern

def appliesTo (r : Rule) (path : String) : Bool :=
  let path := Path.withoutCurrent path
  (r.includes.isEmpty || r.includes.any (·.covers path)) && !r.excludes.any (·.covers path)

end Rule

/-! ## Rule sets -/

namespace Rule

def compileAll : List RuleConfig → Except RuleError (List Rule)
  | [] => .ok []
  | config :: rest =>
    match compile config with
    | .error fault => .error ⟨config.name, fault⟩
    | .ok rule => (compileAll rest).map (rule :: ·)

/-- For each rule whose pattern is like that of an earlier one, the nearest such
rule and the rule itself, by name; `seen` holds the earlier rules, latest first. -/
def duplicates (seen : List Rule) : List Rule → List (String × String)
  | [] => []
  | rule :: rest =>
    match seen.find? (·.pattern.alike rule.pattern) with
    | some first => (first.name, rule.name) :: duplicates (rule :: seen) rest
    | none => duplicates (rule :: seen) rest

def warnings (rules : List Rule) : List LogLine :=
  (duplicates [] rules).map fun (first, second) =>
    ⟨.warning, s!"rules `{first}` and `{second}` have identical patterns"⟩

end Rule

end Stencil
