import Stencil.Glob.Expression
import Stencil.Path
/-!
# Matching globs

A glob is matched against the bytes of a path by following, part by part, which
places of the path its expression may have led to.  A path that ends in `..` has
no file name, and a glob that is tested on the name, or on the extension, does not
cover it.
-/

namespace Stencil

/-! ## Places of a path -/

/-- The places of a path that an expression may have led to. -/
structure Front where
  /-- How many bytes stand before the first of the places that are told. -/
  behind : Nat
  /-- The bytes from there on. -/
  ahead : List UInt8
  /-- Which places from there on are reached; none beyond the list are. -/
  reached : List Bool
  deriving DecidableEq, Repr

namespace Front

def start (path : List UInt8) : Front := ⟨0, path, [true]⟩

def trim (behind : Nat) : List UInt8 → List Bool → Front
  | ahead, true :: reached => ⟨behind, ahead, true :: reached⟩
  | _ :: ahead, false :: reached => trim (behind + 1) ahead reached
  | ahead, _ => ⟨behind, ahead, []⟩

def atEnd (f : Front) : Bool := (f.reached.drop f.ahead.length).headD false

def steps (bytes : ByteSet) : List UInt8 → List Bool → List Bool
  | b :: ahead, r :: reached => (r && bytes.holds b) :: steps bytes ahead reached
  | _, _ => []

def afterOne (bytes : ByteSet) (f : Front) : Front :=
  trim f.behind f.ahead (false :: steps bytes f.ahead f.reached)

/-- The places behind any number of bytes of the set; `carried` tells whether the
first place is reached from one before it. -/
def runs (bytes : ByteSet) (carried : Bool) : List UInt8 → List Bool → List Bool
  | [], reached => [carried || reached.headD false]
  | b :: ahead, r :: reached =>
    (carried || r) :: runs bytes ((carried || r) && bytes.holds b) ahead reached
  | b :: ahead, [] => if carried then true :: runs bytes (bytes.holds b) ahead [] else []

def afterMany (bytes : ByteSet) (f : Front) : Front :=
  { f with reached := runs bytes false f.ahead f.reached }

def either : List Bool → List Bool → List Bool
  | [], reached | reached, [] => reached
  | r :: reached, s :: others => (r || s) :: either reached others

def union (f g : Front) : Front :=
  let unreached (count : Nat) := List.replicate count false
  if f.behind ≤ g.behind then
    trim f.behind f.ahead (either f.reached (unreached (g.behind - f.behind) ++ g.reached))
  else
    trim g.behind g.ahead (either (unreached (f.behind - g.behind) ++ f.reached) g.reached)

end Front

namespace ByteExpr

mutual

def after (f : Front) : ByteExpr → Front
  | one bytes => f.afterOne bytes
  | many bytes => f.afterMany bytes
  | optional bytes => f.union (f.afterOne bytes)
  | choice branches => afterBranches f branches

def afterSequence (f : Front) : List ByteExpr → Front
  | [] => f
  | e :: es => afterSequence (e.after f) es

def afterBranches (f : Front) : List (List ByteExpr) → Front
  | [] => { f with reached := [] }
  | branch :: branches => (afterSequence f branch).union (afterBranches f branches)

end

end ByteExpr

/-! ## Tests -/

inductive GlobTest where
  | fileName
  | wholePath
  | extension
  | front
  | back
  /-- The extension, and then the expression. -/
  | extensionFirst (extension : String)
  | expression
  deriving DecidableEq, Repr

def GlobTest.readsName : GlobTest → Bool
  | fileName | extension | extensionFirst _ => true
  | _ => false

def GlobToken.isLiteral : GlobToken → Bool
  | literal _ => true
  | _ => false

def GlobToken.isPlain : GlobToken → Bool
  | literal c => c != '/'
  | _ => false

namespace Glob

def withoutParents : List GlobToken → List GlobToken
  | .anyParents :: tokens => tokens
  | tokens => tokens

def isNameGlob : List GlobToken → Bool
  | .anyParents :: tokens => !tokens.isEmpty && tokens.all (·.isPlain)
  | _ => false

def isExtensionGlob (crossing : Bool) (tokens : List GlobToken) : Bool :=
  match withoutParents tokens with
  | .star :: .literal '.' :: extension =>
    (crossing || tokens.length != extension.length + 2) &&
      extension.all fun token => token.isPlain && match token with
        | .literal c => c != '.'
        | _ => true
  | _ => false

def isFrontGlob (crossing : Bool) (tokens : List GlobToken) : Bool :=
  match tokens.reverse with
  | .anyBelow :: front => front.all (·.isLiteral)
  | .star :: front => crossing && !front.isEmpty && front.all (·.isLiteral)
  | front => !front.isEmpty && front.all (·.isLiteral)

def isBackGlob (crossing : Bool) (tokens : List GlobToken) : Bool :=
  let slashed := match tokens with
    | .anyParents :: .literal _ :: _ => true
    | _ => false
  match withoutParents tokens with
  | .star :: back => crossing && !back.isEmpty && back.all (·.isLiteral) && !(isSlash back)
  | back => !back.isEmpty && back.all (·.isLiteral) && (slashed || !(isSlash back))
where
  isSlash : List GlobToken → Bool
    | [.literal '/'] => true
    | _ => false

def closingExtension? (tokens : List GlobToken) : Option String :=
  let plain := (tokens.reverse.takeWhile (·.isPlain)).filterMap fun
    | .literal c => some c
    | _ => none
  if plain.contains '.' then
    some ("." ++ String.ofList (plain.takeWhile (· != '.')).reverse)
  else none

def test (g : Glob) : GlobTest :=
  if isNameGlob g.tokens then .fileName
  else if !g.tokens.isEmpty && g.tokens.all (·.isLiteral) then .wholePath
  else if isExtensionGlob g.crossing g.tokens then .extension
  else if isFrontGlob g.crossing g.tokens then .front
  else if isBackGlob g.crossing g.tokens then .back
  else match closingExtension? g.tokens with
    | some extension => .extensionFirst extension
    | none => .expression

def isNameless (path : String) : Bool :=
  path.isEmpty || (Path.segments path).getLast? == some ".."

def covers (g : Glob) (path : String) : Bool :=
  (ByteExpr.afterSequence (.start (utf8Bytes path.toList)) g.expression).atEnd &&
    !(g.test.readsName && isNameless path)

end Glob

end Stencil
