import Stencil.Config
import Stencil.Forest
import Stencil.Ignore
/-!
# Discovering files

The files that paths stand for.  A file stands for itself; a directory stands for
the files below it that have one of the configured extensions and to which no
rule or leading dot bars the way.
-/

namespace Stencil

inductive DiscoverError where
  | absent (path : String)
  | exclude (pattern : String) (error : GlobError)
  | excludes (error : GlobSetError)
  deriving DecidableEq, Repr

def DiscoverError.message : DiscoverError → String
  | absent path => s!"path does not exist: {path}"
  | exclude pattern e => s!"invalid exclude pattern: {pattern}: {e.message}"
  | excludes e => s!"failed to build overrides: {e.message}"

namespace FileTree

def parseExcludes : List String → Except DiscoverError (List IgnoreRule)
  | [] => .ok []
  | pattern :: rest =>
    match IgnoreRule.ofLine? false ("!" ++ pattern) with
    | .error e => .error (.exclude pattern e)
    | .ok none => parseExcludes rest
    | .ok (some rule) => (parseExcludes rest).map (rule :: ·)

def excludeRules (patterns : List String) : Except DiscoverError (List IgnoreRule) :=
  match parseExcludes patterns with
  | .error e => .error e
  | .ok rules =>
    match IgnoreRule.setError? rules with
    | some e => .error (.excludes e)
    | none => .ok rules

def wayBelow? : (directory place : List String) → Option (List String)
  | [], [] => none
  | [], name :: names => some (name :: names)
  | _ :: _, [] => none
  | d :: ds, name :: names => if d = name then wayBelow? ds names else none

/-- A walk: the directory at `path` that it starts from, what bars the way, and the
directories above whose rules matter, nearest first, each with the way from it to the
start. -/
structure Walk where
  path : String
  start : List String
  excludes : List IgnoreRule
  above : List (String × DirectoryRules)

namespace Walk

def ofDirectory (tree : FileTree) (excludes : List IgnoreRule) (path : String)
    (start : List String) : Walk where
  path
  start
  excludes
  above :=
    let lead (n : Nat) := ("/".intercalate (start.drop n), tree.directoryRules (start.take n))
    ((List.range start.length).map lead).reverse.filter (!·.2.isSilent)

def pass (passed : List (String × DirectoryRules)) (path : String) (rules : DirectoryRules) :
    List (String × DirectoryRules) :=
  if rules.isSilent then passed else (path, rules) :: passed

def isBarred (w : Walk) (passed : List (String × DirectoryRules)) (found : String)
    (way : List String) (isDirectory : Bool) : Bool :=
  match IgnoreRule.verdict w.excludes (Path.seenFrom w.path found) isDirectory with
  | .kept => true
  | .ignored => false
  | .undecided =>
    let inside := passed.map fun (path, rules) => View.mk rules (Path.seenFrom path found)
    let outside := w.above.map fun (lead, rules) =>
      View.mk rules (lead ++ "/" ++ "/".intercalate way)
    match ignoreVerdict (inside ++ outside) isDirectory with
    | .ignored => true
    | .kept => false
    | .undecided => (way.getLastD "").startsWith "."

def files (tree : FileTree) (w : Walk) (passed : List (String × DirectoryRules)) (path : String)
    (way : List String) : Forest → List String
  | .nil => []
  | .file name rest =>
    let found := Path.join path name
    let others := files tree w passed path way rest
    if w.isBarred passed found (way ++ [name]) false then others else found :: others
  | .directory name inside rest =>
    let found := Path.join path name
    let others := files tree w passed path way rest
    if w.isBarred passed found (way ++ [name]) true then others
    else
      let rules := tree.directoryRules (w.start ++ way ++ [name])
      files tree w (pass passed found rules) found (way ++ [name]) inside ++ others

end Walk

/-- The files that a walk of the directory at `path` finds.  A lone dash stands for
no directory, even if one has that name. -/
def walk (tree : FileTree) (config : Config) (path : String) (directory : List String) :
    Except DiscoverError (List String) :=
  (excludeRules config.excludes).map fun excludes =>
    if Path.same path "-" then []
    else
      let forest := Forest.ofWays (tree.files.filterMap fun (file, _) => wayBelow? directory file)
      let w := Walk.ofDirectory tree excludes path directory
      let passed := Walk.pass [] path (tree.directoryRules directory)
      (w.files tree passed path [] forest).filter config.hasExtension

def filesAt (tree : FileTree) (config : Config) (path : String) :
    Except DiscoverError (List String) :=
  match tree.place? path with
  | .error _ => .error (.absent path)
  | .ok place =>
    match tree.entry place with
    | .ok (.file _) => .ok [path]
    | .ok .directory => tree.walk config path place
    | .error _ => .error (.absent path)

def dropRepeated : List String → List String
  | [] => []
  | [path] => [path]
  | p :: q :: rest =>
    if Path.same p q then dropRepeated (p :: rest) else p :: dropRepeated (q :: rest)
  termination_by paths => paths.length

def discover (tree : FileTree) (config : Config) (paths : List String) :
    Except DiscoverError (List String) :=
  (paths.mapM (tree.filesAt config)).map fun found =>
    dropRepeated (found.flatten.mergeSort Path.le)

end FileTree

end Stencil
