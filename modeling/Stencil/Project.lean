import Stencil.FileTree
import Stencil.Lint
/-!
# Linting files

Every file is linted on its own.  A file that cannot be read, decoded or
tokenized is skipped; fixed content is written back, and where that fails nothing
counts as corrected.
-/

namespace Stencil

structure ProjectResult where
  diagnostics : List Diagnostic
  fileCount : Nat
  correctedCount : Nat
  /-- The files that could not be linted. -/
  skipped : List String
  logs : List LogLine
  deriving DecidableEq, Repr

inductive FileOutcome where
  | linted (diagnostics : List Diagnostic) (correctedCount : Nat) (logs : List LogLine)
  | skipped (path reason : String)
  deriving DecidableEq, Repr

namespace FileOutcome

def diagnostics : FileOutcome → List Diagnostic
  | linted ds _ _ => ds
  | skipped _ _ => []

def correctedCount : FileOutcome → Nat
  | linted _ n _ => n
  | skipped _ _ => 0

def skippedPath? : FileOutcome → Option String
  | linted _ _ _ => none
  | skipped path _ => some path

def logs : FileOutcome → List LogLine
  | linted _ _ logs => logs
  | skipped path reason => [⟨.warning, s!"skipping {path}: {reason}"⟩]

def unwritten (path : String) (result : LintResult) (e : FileError) : FileOutcome :=
  .linted (result.diagnostics.map ({ · with corrected := false })) 0
    (result.logs ++ [⟨.error, s!"failed to write corrected file {path}: {e.message}"⟩])

end FileOutcome

namespace FileTree

def lintFile (tree : FileTree) (rules : List Rule) (options : LintOptions) (path : String) :
    FileOutcome × FileTree :=
  match tree.read path with
  | .error e => (.skipped path s!"failed to read {path}: {e.message}", tree)
  | .ok content =>
    match lintSource ⟨path, content⟩ rules options with
    | .error e => (.skipped path e.message, tree)
    | .ok result =>
      match result.fixed with
      | none => (.linted result.diagnostics 0 result.logs, tree)
      | some fixed =>
        match tree.write path fixed with
        | (none, tree) =>
          (.linted result.diagnostics (result.diagnostics.filter (·.corrected)).length
            result.logs, tree)
        | (some e, tree) => (.unwritten path result e, tree)

def lintFiles (tree : FileTree) (rules : List Rule) (options : LintOptions) :
    List String → List FileOutcome × FileTree
  | [] => ([], tree)
  | path :: rest =>
    let (outcome, tree) := tree.lintFile rules options path
    let (outcomes, tree) := tree.lintFiles rules options rest
    (outcome :: outcomes, tree)

def lint (tree : FileTree) (rules : List Rule) (options : LintOptions) (files : List String) :
    ProjectResult × FileTree :=
  let (outcomes, tree) := tree.lintFiles rules options files
  ({
    diagnostics := Diagnostic.sort (outcomes.flatMap (·.diagnostics))
    fileCount := files.length
    correctedCount := outcomes.foldr (fun outcome count => outcome.correctedCount + count) 0
    skipped := outcomes.filterMap (·.skippedPath?)
    logs := outcomes.flatMap (·.logs)
  }, tree)

end FileTree

end Stencil
