import Stencil.CommandLine
import Stencil.Discover
import Stencil.Project
import Stencil.Rule.Listing
/-!
# Runs

The whole program over a file tree and standard input.
-/

namespace Stencil

structure Outcome where
  exitCode : Nat
  error : Option String
  stdout : List UInt8
  logs : List LogLine
  tree : FileTree

namespace Outcome

def failure (tree : FileTree) (logs : List LogLine) (error : String) : Outcome :=
  ⟨3, some error, [], logs, tree⟩

def success (tree : FileTree) (logs : List LogLine) (stdout : List UInt8) (matchCount : Nat) :
    Outcome :=
  ⟨if matchCount == 0 then 0 else 1, none, stdout, logs, tree⟩

end Outcome

def bytes (text : String) : List UInt8 := utf8Bytes text.toList

def runStdin (a : Arguments) (rules : List Rule) (logs : List LogLine) (tree : FileTree)
    (path : String) (stdin : List UInt8) : Outcome :=
  match decode stdin with
  | .error _ => .failure tree logs s!"failed to read stdin: {FileError.notUtf8.message}"
  | .ok _ =>
    match lintSource ⟨path, stdin⟩ rules a.lintOptions with
    | .error e => .failure tree logs e.message
    | .ok result =>
      let stdout :=
        if a.fix then result.fixed.getD stdin
        else bytes (Report.render (.ofName a.formatName) result.diagnostics 1)
      .success tree (logs ++ result.logs) stdout result.diagnostics.length

def runFiles (a : Arguments) (config : Config) (rules : List Rule) (logs : List LogLine)
    (tree : FileTree) : Outcome :=
  match tree.discover config a.paths with
  | .error e => .failure tree logs e.message
  | .ok files =>
    let (result, tree) := tree.lint rules a.lintOptions files
    let skipped : List LogLine :=
      if result.skipped.isEmpty then []
      else [⟨.warning, s!"{result.skipped.length} files skipped"⟩]
    let applied : List LogLine :=
      if result.correctedCount == 0 then []
      else [⟨.info, s!"applied {result.correctedCount} rewrites"⟩]
    .success tree (logs ++ result.logs ++ skipped ++ applied)
      (bytes (Report.render (.ofName a.formatName) result.diagnostics result.fileCount))
      result.diagnostics.length

def run (a : Arguments) (tree : FileTree) (stdin : List UInt8) : Outcome :=
  match Config.load tree a.config with
  | .error e => .failure tree [] e.message
  | .ok config =>
    match a.adhocRule with
    | .error e => .failure tree [] e.message
    | .ok adhoc =>
      match Rule.compileAll (config.rules ++ adhoc.toList) with
      | .error e => .failure tree [] e.message
      | .ok rules =>
        let logs := Rule.warnings rules
        if a.listRules then
          let entries := rules.map Rule.entry
          let listing :=
            if a.formatName == "json" then RuleEntry.json entries else RuleEntry.table entries
          .success tree logs (bytes listing) 0
        else if rules.isEmpty then
          .failure tree logs
            s!"no rules to run: pass --pattern or add rules to {Config.defaultPath}"
        else match a.stdin with
          | some path => runStdin a rules logs tree path stdin
          | none => runFiles a config rules logs tree

def lintedFiles (a : Arguments) (tree : FileTree) : List String :=
  match Config.load tree a.config with
  | .error _ => []
  | .ok config =>
    match tree.discover config a.paths with
    | .error _ => []
    | .ok files => files

end Stencil
