import Stencil.Path
/-!
# File trees

A file system as a value.  Files and directories are known by their names from
the root; every directory on the way to one of them exists.  Relative paths start
from the working directory.  Where reading or writing a file fails, the tree says
how, for each file on its own; a write empties the file before it fills it.
-/

namespace Stencil

inductive FileError where
  | missing
  /-- The way leads through a file. -/
  | notDirectory
  | isDirectory
  | nameTooLong
  | nulInName
  | notUtf8
  | denied
  | noSpace
  | other (message : String)
  deriving DecidableEq, Repr

def FileError.message : FileError → String
  | missing => "No such file or directory (os error 2)"
  | notDirectory => "Not a directory (os error 20)"
  | isDirectory => "Is a directory (os error 21)"
  | nameTooLong => "File name too long (os error 36)"
  | nulInName => "file name contained an unexpected NUL byte"
  | notUtf8 => "stream did not contain valid UTF-8"
  | denied => "Permission denied (os error 13)"
  | noSpace => "No space left on device (os error 28)"
  | other message => message

structure FileFaults where
  reading : Option FileError := none
  /-- Opening it for writing, before anything is lost. -/
  opening : Option FileError := none
  /-- Writing more than so many bytes to it. -/
  filling : Option (Nat × FileError) := none
  deriving DecidableEq, Repr

/-- What comes of writing some bytes to a file that is open and empty, and those of them
that it holds then. -/
def FileFaults.absorb (faults : FileFaults) (content : List UInt8) :
    Option FileError × List UInt8 :=
  match faults.filling with
  | none => (none, content)
  | some (room, e) => if room < content.length then (some e, content.take room) else (none, content)

structure FileTree where
  workingDirectory : List String
  files : List (List String × List UInt8)
  directories : List (List String) := []
  faults : List (List String × FileFaults) := []
  deriving Repr

inductive FileTree.Entry where
  | file (content : List UInt8)
  | directory
  deriving DecidableEq, Repr

namespace FileTree

def longestName : Nat := 255

def longestPath : Nat := 4095

def entry (tree : FileTree) (place : List String) : Except FileError Entry :=
  match tree.files.lookup place with
  | some content => .ok (.file content)
  | none =>
    if place.isPrefixOf tree.workingDirectory || tree.directories.any place.isPrefixOf ||
        tree.files.any (fun (file, _) => place.isPrefixOf file) then .ok .directory
    else if tree.files.any fun (file, _) => file.isPrefixOf place then .error .notDirectory
    else .error .missing

def follow (tree : FileTree) (place : List String) :
    List String → Except FileError (List String)
  | [] => .ok place
  | segment :: rest =>
    match tree.entry place with
    | .ok .directory =>
      if Path.isHollow segment then tree.follow place rest
      else if segment == ".." then tree.follow place.dropLast rest
      else if longestName < segment.utf8ByteSize then .error .nameTooLong
      else tree.follow (place ++ [segment]) rest
    | .ok (.file _) => .error .notDirectory
    | .error e => .error e

def place? (tree : FileTree) (path : String) : Except FileError (List String) :=
  if path.contains '\x00' then .error .nulInName
  else if path.isEmpty then .error .missing
  else if longestPath < path.utf8ByteSize then .error .nameTooLong
  else
    let start := if path.startsWith "/" then [] else tree.workingDirectory
    tree.follow start (Path.segments path)

def find (tree : FileTree) (path : String) : Except FileError Entry :=
  match tree.place? path with
  | .ok place => tree.entry place
  | .error e => .error e

def exists? (tree : FileTree) (path : String) : Bool := (tree.find path).isOk

/-! ## Reading -/

def faultsAt (tree : FileTree) (place : List String) : FileFaults :=
  (tree.faults.lookup place).getD {}

def legible? (tree : FileTree) (place : List String) : Option (List UInt8) :=
  if (tree.faultsAt place).reading.isSome then none else tree.files.lookup place

def read (tree : FileTree) (path : String) : Except FileError (List UInt8) :=
  match tree.place? path with
  | .error e => .error e
  | .ok place =>
    match tree.entry place with
    | .ok (.file content) =>
      match (tree.faultsAt place).reading with
      | none => .ok content
      | some e => .error e
    | .ok .directory => .error .isDirectory
    | .error e => .error e

/-! ## Writing -/

def put (tree : FileTree) (place : List String) (content : List UInt8) : FileTree :=
  { tree with
    files := tree.files.map fun (file, old) =>
      if file = place then (file, content) else (file, old) }

def filePlace (tree : FileTree) (path : String) : Except FileError (List String) :=
  match tree.place? path with
  | .error e => .error e
  | .ok place =>
    match tree.entry place with
    | .ok (.file _) => .ok place
    | .ok .directory => .error .isDirectory
    | .error e => .error e

/-- Opens a file for writing, which empties it. -/
def clear (tree : FileTree) (path : String) : Except FileError FileTree :=
  match tree.filePlace path with
  | .error e => .error e
  | .ok place =>
    match (tree.faultsAt place).opening with
    | none => .ok (tree.put place [])
    | some e => .error e

def fill (tree : FileTree) (path : String) (content : List UInt8) : Option FileError × FileTree :=
  match tree.filePlace path with
  | .error e => (some e, tree)
  | .ok place =>
    let (e, written) := (tree.faultsAt place).absorb content
    (e, tree.put place written)

/-- Gives an existing file new content.  Where that fails halfway the old content is lost. -/
def write (tree : FileTree) (path : String) (content : List UInt8) : Option FileError × FileTree :=
  match tree.clear path with
  | .error e => (some e, tree)
  | .ok tree => tree.fill path content

end FileTree

end Stencil
