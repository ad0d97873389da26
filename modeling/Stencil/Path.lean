/-!
# Paths

Paths are strings as they were given.  They are compared by their components, so
repeated separators and inner dots do not count.
-/

namespace Stencil

/-- A component of a path; a leading dot is one, an inner dot is not. -/
inductive Component where
  | root
  | current
  | parent
  | name (text : String)
  deriving DecidableEq, Repr

namespace Component

def rank : Component → Nat
  | root => 0
  | current => 1
  | parent => 2
  | name _ => 3

def lt : Component → Component → Bool
  | name a, name b => a < b
  | a, b => a.rank < b.rank

end Component

namespace Path

def segments (path : String) : List String := (path.toList.splitOn '/').map String.ofList

def isHollow (segment : String) : Bool := segment == "" || segment == "."

def component (segment : String) : Component := if segment == ".." then .parent else .name segment

def components (path : String) : List Component :=
  match segments path with
  | "." :: rest => .current :: named rest
  | "" :: rest => if rest.isEmpty then [] else .root :: named rest
  | segs => named segs
where
  named (segs : List String) : List Component :=
    (segs.filter fun s => !isHollow s).map component

def leComponents : List Component → List Component → Bool
  | [], _ => true
  | _ :: _, [] => false
  | a :: as, b :: bs => a.lt b || (!b.lt a && leComponents as bs)

def le (p q : String) : Bool := leComponents (components p) (components q)

def same (p q : String) : Bool := components p == components q

def fileName? (path : String) : Option String :=
  match (components path).getLast? with
  | some (.name text) => some text
  | _ => none

/-- What follows the last dot of the file name, unless nothing precedes it. -/
def extension? (path : String) : Option String :=
  match fileName? path with
  | none => none
  | some name =>
    let reversed := name.toList.reverse
    match reversed.dropWhile (· != '.') with
    | _ :: _ :: _ => some (String.ofList (reversed.takeWhile (· != '.')).reverse)
    | _ => none

def withoutCurrent (path : String) : String :=
  match segments path with
  | "." :: rest =>
    "/".intercalate ((rest.dropWhile isHollow).reverse.dropWhile isHollow).reverse
  | _ => path

def resolve (directory : List String) (path : String) : List String :=
  (segments path).foldl
    (fun place segment =>
      if isHollow segment then place
      else if segment == ".." then place.dropLast
      else place ++ [segment])
    (if path.startsWith "/" then [] else directory)

def join (path name : String) : String :=
  if path.isEmpty || path.endsWith "/" then path ++ name else path ++ "/" ++ name

def withoutDot (path : String) : String :=
  if path.startsWith "./" then (path.drop 2).toString else path

/-- A path below `directory` as it is seen from there.  The texts decide: a path
loses the text of the directory, and where a repeated `./` keeps it from starting with
that text it stays as it is. -/
def seenFrom (directory path : String) : String :=
  let start := withoutDot directory
  let path := withoutDot (withoutDot path)
  if same start "." || !path.contains '/' || !path.startsWith start then path
  else
    let way := (path.drop start.length).toString
    if way.startsWith "/" then (way.drop 1).toString else way

end Path

end Stencil
