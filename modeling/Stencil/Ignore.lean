import Stencil.FileTree
import Stencil.Glob.Set
import Stencil.Text.Blank
/-!
# Ignore rules

The rules of ignore files: a line is a glob, later lines win, `!` takes a path
back in, and a glob without an inner separator holds at every depth.  The file
nearest to a path decides.  `.ignore` holds everywhere, `.gitignore` only within
a repository.
-/

namespace Stencil

structure IgnoreRule where
  glob : Glob
  keeps : Bool
  onlyDirectories : Bool

inductive Verdict where
  | undecided
  | ignored
  | kept
  deriving DecidableEq, Repr

def Verdict.orElse : Verdict → Verdict → Verdict
  | undecided, v => v
  | v, _ => v

/-! ## Lines -/

/-- The lines of a text.  A carriage return belongs to the end of a line if a line
feed follows. -/
def linesOf (text : String) : List String :=
  let pieces := text.splitOn "\n"
  let whole := pieces.dropLast.map fun line =>
    ((line.dropSuffix? "\r").map (·.toString)).getD line
  match pieces.getLast? with
  | none | some "" => whole
  | some last => whole ++ [last]

namespace IgnoreRule

def trimLine (line : String) : String :=
  if line.endsWith "\\ " then line else String.ofList (trimEnd line.toList)

def withoutSlash (line : List Char) : List Char × Bool :=
  match line.reverse with
  | '/' :: '\\' :: rest => (rest.reverse, true)
  | '/' :: rest => (rest.reverse, true)
  | _ => (line, false)

def globText (anchored : Bool) (line : List Char) : String :=
  let line := String.ofList line
  let text :=
    if anchored || line.contains '/' || line == "**" then line else "**/" ++ line
  if text.endsWith "/**" then text ++ "/*" else text

def ofLine? (openClassLiteral : Bool) (line : String) : Except GlobError (Option IgnoreRule) :=
  let line := if line.startsWith "#" then "" else trimLine line
  if line.isEmpty then .ok none
  else
    let (keeps, anchored, body) :=
      match line.toList with
      | '\\' :: '!' :: rest => (false, false, '!' :: rest)
      | '\\' :: '#' :: rest => (false, false, '#' :: rest)
      | '!' :: '/' :: rest => (true, true, rest)
      | '!' :: rest => (true, false, rest)
      | '/' :: rest => (false, true, rest)
      | cs => (false, false, cs)
    let (body, onlyDirectories) := withoutSlash body
    match Glob.parse? ⟨false, openClassLiteral⟩ (globText anchored body) with
    | .error fault => .error ⟨line, fault⟩
    | .ok glob => .ok (some ⟨glob, keeps, onlyDirectories⟩)

def setError? (rules : List IgnoreRule) : Option GlobSetError :=
  Glob.setError? (rules.map (·.glob))

/-- The rules of a file; lines that do not parse count for nothing, nor do byte order
marks at the front.  Rules that cannot be used together all count for nothing. -/
def ofText (text : String) : List IgnoreRule :=
  let marked := text.toList.dropWhile (· == '\ufeff')
  let rules := (linesOf (String.ofList marked)).filterMap fun line =>
    match ofLine? true line with
    | .ok rule => rule
    | .error _ => none
  if (setError? rules).isSome then [] else rules

def verdict (rules : List IgnoreRule) (path : String) (isDirectory : Bool) : Verdict :=
  match rules.reverse.find? fun r => (isDirectory || !r.onlyDirectories) && r.glob.covers path with
  | some r => if r.keeps then .kept else .ignored
  | none => .undecided

end IgnoreRule

/-! ## Ignore files of a tree -/

namespace FileTree

def readableLines (content : List UInt8) : String :=
  match decode content with
  | .ok cs => String.ofList cs
  | .error fault =>
    match decode (content.take fault.validUpTo) with
    | .ok cs => String.ofList (cs.reverse.dropWhile (· != '\n')).reverse
    | .error _ => ""

def ignoreRules (tree : FileTree) (file : List String) : List IgnoreRule :=
  match tree.legible? file with
  | some content => IgnoreRule.ofText (readableLines content)
  | none => []

/-! ## Repositories -/

def isRepository (tree : FileTree) (directory : List String) : Bool :=
  [".git", ".jj"].any fun name => (tree.entry (directory ++ [name])).isOk

def firstLine? (tree : FileTree) (path : String) : Option String :=
  match tree.read path with
  | .ok content => (linesOf (readableLines content)).head?
  | .error _ => none

def linkedDirectory? (content : List UInt8) : Option String :=
  (linesOf (readableLines content)).head?.bind fun line =>
    (line.dropPrefix? "gitdir: ").map (·.toString)

/-- The directory whose `info/exclude` holds for a repository that is linked to
`linked`: the one named by `commondir` there. -/
def sharedDirectory? (tree : FileTree) (linked : String) : Option String :=
  (tree.firstLine? (Path.join linked "commondir")).map fun line =>
    if line.startsWith "." then Path.join linked line else line

def excludeFile? (tree : FileTree) (directory : List String) : Option (List String) :=
  match tree.files.lookup (directory ++ [".git"]) with
  | none => some (directory ++ [".git", "info", "exclude"])
  | some _ => do
    let content ← tree.legible? (directory ++ [".git"])
    let shared ← tree.sharedDirectory? (← linkedDirectory? content)
    (tree.place? (Path.join shared "info/exclude")).toOption

/-! ## Verdicts -/

structure DirectoryRules where
  /-- The rules that hold everywhere. -/
  general : List IgnoreRule
  /-- The rules that hold within a repository. -/
  tracked : List IgnoreRule
  /-- The rules of the repository that the directory is. -/
  excluded : List IgnoreRule
  isRepository : Bool

def DirectoryRules.isSilent (rules : DirectoryRules) : Bool :=
  rules.general.isEmpty && rules.tracked.isEmpty && rules.excluded.isEmpty && !rules.isRepository

def directoryRules (tree : FileTree) (directory : List String) : DirectoryRules where
  general := tree.ignoreRules (directory ++ [".ignore"])
  tracked := tree.ignoreRules (directory ++ [".gitignore"])
  excluded := ((tree.excludeFile? directory).map tree.ignoreRules).getD []
  isRepository := tree.isRepository directory

/-- A directory whose ignore files bear on a path, and the path as it is seen from
there. -/
structure View where
  rules : DirectoryRules
  path : String

namespace View

def verdict (rules : DirectoryRules → List IgnoreRule) (isDirectory : Bool) :
    List View → Verdict
  | [] => .undecided
  | view :: rest =>
    (IgnoreRule.verdict (rules view.rules) view.path isDirectory).orElse
      (verdict rules isDirectory rest)

def withinRepository (views : List View) : List View :=
  let inside := views.takeWhile fun view => !view.rules.isRepository
  if inside.length < views.length then views.take (inside.length + 1) else []

end View

def ignoreVerdict (views : List View) (isDirectory : Bool) : Verdict :=
  let repository := View.withinRepository views
  (View.verdict (·.general) isDirectory views).orElse <|
    (View.verdict (·.tracked) isDirectory repository).orElse <|
      View.verdict (·.excluded) isDirectory repository

end FileTree

end Stencil
