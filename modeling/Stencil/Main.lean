import Stencil.Run
/-!
# The program

Takes down from the disk what a run asks for, and what of it cannot be read or
opened for writing, runs on that, and writes back the files that have changed.
-/

namespace Stencil.Disk

def pathOf (place : List String) : String := "/" ++ "/".intercalate place

inductive Kind where
  | file
  | directory
  | missing
  deriving DecidableEq

def kind (path : String) : IO Kind := do
  try return if ← (← IO.FS.realPath path).isDir then .directory else .file
  catch _ => return .missing

def errorOf : IO.Error → FileError
  | .noFileOrDirectory .. => .missing
  | .permissionDenied .. => .denied
  | .resourceExhausted .. => .noSpace
  | e => .other e.toString

def attempt {α : Type} (action : IO α) : IO (Except FileError α) := do
  try return .ok (← action)
  catch e => return .error (errorOf e)

def fault? {α : Type} : Except FileError α → Option FileError
  | .ok _ => none
  | .error e => some e

/-- The names in a directory, but for links to directories. -/
def names (place : List String) : IO (List String) := do
  try
    let entries ← (← IO.FS.realPath (pathOf place)).readDir
    let kept ← entries.toList.filterM fun entry => do
      let isLink := (← entry.path.symlinkMetadata).type matches .symlink
      return !(isLink && (← entry.path.isDir))
    return kept.map (·.fileName)
  catch _ => return []

/-! ## Taking down -/

/-- Takes in what the file at a place holds, or why it cannot be read, and with `fix` why it
cannot be opened for writing. -/
def addContent (tree : FileTree) (place : List String) (fix : Bool) : IO FileTree := do
  let content ← attempt (IO.FS.readBinFile (pathOf place))
  -- a file that is opened for appending keeps what it holds
  let opening ←
    if fix then attempt (discard (IO.FS.Handle.mk (pathOf place) .append)) else pure (.ok ())
  let tree := match content with
    | .ok bytes => tree.put place bytes.toList
    | .error _ => tree
  let faults : FileFaults := { reading := fault? content, opening := fault? opening }
  if faults = {} then return tree else return { tree with faults := (place, faults) :: tree.faults }

def addFile (tree : FileTree) (place : List String) : IO FileTree := do
  if (← kind (pathOf place)) = .file && (tree.files.lookup place).isNone then
    addContent { tree with files := (place, []) :: tree.files } place false
  else return tree

def bearsOnWalks (name : String) : Bool :=
  [".ignore", ".gitignore", ".git", "exclude", "commondir"].contains name

/-- Takes in what is at a place and below it, most files without their content. -/
partial def add (tree : FileTree) (place : List String) : IO FileTree := do
  match ← kind (pathOf place) with
  | .missing => return tree
  | .file =>
    if bearsOnWalks (place.getLastD "") then addFile tree place
    else if (tree.files.lookup place).isSome then return tree
    else return { tree with files := (place, []) :: tree.files }
  | .directory =>
    let tree := { tree with directories := place :: tree.directories }
    (← names place).foldlM (fun tree name => add tree (place ++ [name])) tree

def addAbove (tree : FileTree) (place : List String) : IO FileTree := do
  let mut tree := tree
  for n in List.range place.length do
    let directory := place.take n
    for name in [".ignore", ".gitignore", ".git", ".jj"] do
      tree ← addFile tree (directory ++ [name])
      if (← kind (pathOf (directory ++ [name]))) = .directory then
        tree := { tree with directories := (directory ++ [name]) :: tree.directories }
    tree ← addFile tree (directory ++ [".git", "info", "exclude"])
  return tree

def addLinked (tree : FileTree) : IO FileTree := do
  let mut tree := tree
  for (place, content) in tree.files do
    if place.getLast? = some ".git" then
      if let some linked := FileTree.linkedDirectory? content then
        let placeOf (path name : String) := Path.resolve tree.workingDirectory (Path.join path name)
        tree ← addFile tree (placeOf linked "commondir")
        if let some shared := tree.sharedDirectory? linked then
          tree ← addFile tree (placeOf shared "info/exclude")
  return tree

def load (a : Arguments) : IO FileTree := do
  let here := Path.resolve [] (← IO.currentDir).toString
  let mut tree ← addFile { workingDirectory := here, files := [] }
    (Path.resolve here (a.config.getD Config.defaultPath))
  if a.readsFiles then
    for path in a.paths do
      let place := Path.resolve here path
      tree ← addAbove (← add tree place) place
    tree ← addLinked tree
    for file in lintedFiles a tree do
      tree ← addContent tree (Path.resolve here file) a.fix
  return tree

/-! ## Running -/

def overwrite (place : List String) (content : List UInt8) : IO FileFaults := do
  match ← attempt (IO.FS.Handle.mk (pathOf place) .write) with
  | .error e => return { opening := e }
  | .ok handle =>
    match ← attempt (do handle.write ⟨content.toArray⟩; handle.flush) with
    | .ok _ => return {}
    | .error e =>
      let room := (← (← IO.FS.realPath (pathOf place)).metadata).byteSize.toNat
      return { filling := some (room, e) }

/-- Writes the files back that differ; the files where that fails, with what fails. -/
def store (before after : FileTree) : IO (List (List String × FileFaults)) := do
  let mut failed := []
  for ((place, old), (_, new)) in before.files.zip after.files do
    if old != new then
      let faults ← overwrite place new
      if faults ≠ {} then failed := (place, faults) :: failed
  return failed

/-- Runs over what has been taken down and writes back.  Where writing fails the outcome is
that of a run that meets the failure. -/
def settle (a : Arguments) (tree : FileTree) (stdin : List UInt8) : IO Outcome := do
  let outcome := run a tree stdin
  let failed ← store tree outcome.tree
  if failed.isEmpty then return outcome
  else return run a { tree with faults := failed ++ tree.faults } stdin

def execute (a : Arguments) : IO UInt32 := do
  let stdin ← if a.stdin.isSome then (← IO.getStdin).readBinToEnd else pure .empty
  let tree ← load a
  let outcome ← settle a tree stdin.toList
  for line in outcome.logs do
    if a.debug || line.level != .info then IO.eprintln line.shown
  (← IO.getStdout).write ⟨outcome.stdout.toArray⟩
  if let some error := outcome.error then IO.eprintln s!"error: {error}"
  return outcome.exitCode.toUInt32

def start (argv : List String) : IO UInt32 := do
  match Arguments.parse argv with
  | .ok a => execute a
  | .error .displayHelp =>
    IO.println UsageError.displayHelp.message
    return 0
  | .error .displayVersion =>
    IO.println UsageError.displayVersion.message
    return 0
  | .error e =>
    IO.eprintln s!"error: {e.message}"
    return 2

end Stencil.Disk

def main (argv : List String) : IO UInt32 := Stencil.Disk.start argv
