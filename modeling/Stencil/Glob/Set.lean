import Stencil.Glob.Match
import Stencil.Text.HashOrder
/-!
# Glob sets

Globs that are used together.  Only globs whose test needs an expression are bounded
in depth: those with an extension are looked at one by one, extension by extension,
and all others together after them.
-/

namespace Stencil

def depthLimit : Nat := 250

inductive GlobSetError where
  /-- An expression that stands alone nests too deep. -/
  | deep (expression : String)
  /-- Of the expressions that are taken together, the one at this place nests too deep. -/
  | deepAt (place : Nat)
  deriving DecidableEq, Repr

def GlobSetError.message : GlobSetError → String
  | deep expression => s!"error parsing glob '{expression}': error parsing pattern 0"
  | deepAt place => s!"error parsing pattern {place}"

namespace Glob

def isDeep (g : Glob) : Bool := depthLimit < g.depth

def extensionsFirst (globs : List Glob) : List Glob :=
  let extension? (g : Glob) := match g.test with
    | .extensionFirst extension => some extension
    | _ => none
  (HashOrder.list (globs.filterMap extension?)).flatMap fun extension =>
    globs.filter fun g => extension? g == some extension

def setError? (globs : List Glob) : Option GlobSetError :=
  if globs.any (·.isDeep) then
    match (extensionsFirst globs).find? (·.isDeep) with
    | some g => some (.deep g.expressionText)
    | none => ((globs.filter (·.test == .expression)).findIdx? (·.isDeep)).map .deepAt
  else none

end Glob

end Stencil
