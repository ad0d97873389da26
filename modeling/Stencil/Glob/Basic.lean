/-!
# Globs

The parts of a glob and its parser.  Alternates in braces may nest, a backslash
makes the next character literal, and `**` between separators crosses
directories.
-/

namespace Stencil

inductive GlobToken where
  | literal (c : Char)
  /-- `?` -/
  | any
  /-- `*` -/
  | star
  /-- `**/` at the front of a branch. -/
  | anyParents
  /-- `/**` at the end of a branch. -/
  | anyBelow
  /-- `/**/` -/
  | anyBetween
  | oneOf (negated : Bool) (ranges : List (Char × Char))
  | alternates (branches : List (List GlobToken))
  deriving Repr

inductive GlobFault where
  | unclosedClass
  | invalidRange (least greatest : Char)
  | unopenedAlternates
  | unclosedAlternates
  | danglingEscape
  deriving DecidableEq, Repr

def GlobFault.message : GlobFault → String
  | unclosedClass => "unclosed character class; missing ']'"
  | invalidRange least greatest => s!"invalid range; '{least}' > '{greatest}'"
  | unopenedAlternates =>
    "unopened alternate group; missing '\x7b' (maybe escape '\x7d' with '[\x7d]'?)"
  | unclosedAlternates =>
    "unclosed alternate group; missing '\x7d' (maybe escape '\x7b' with '[\x7b]'?)"
  | danglingEscape => "dangling '\\'"

structure GlobError where
  glob : String
  fault : GlobFault
  deriving DecidableEq, Repr

def GlobError.message (e : GlobError) : String :=
  s!"error parsing glob '{e.glob}': {e.fault.message}"

structure GlobOptions where
  /-- `*` and `?` match a separator too. -/
  crossing : Bool
  /-- A `[` that is never closed stands for itself. -/
  openClassLiteral : Bool
  deriving DecidableEq, Repr

structure Glob where
  tokens : List GlobToken
  crossing : Bool
  deriving Repr

namespace Glob

/-! ## Character classes -/

def closeRange (c : Char) : List (Char × Char) → Except GlobFault (List (Char × Char))
  | [] => .ok [(c, c)]
  | (least, _) :: ranges =>
    if c < least then .error (.invalidRange least c) else .ok ((least, c) :: ranges)

/-- Reads a class up to its closing bracket, which is literal at the `first`
place.  Gives the ranges and the number of characters read. -/
def classRanges (first inRange : Bool) (ranges : List (Char × Char)) (count : Nat) :
    List Char → Except GlobFault (List (Char × Char) × Nat)
  | [] => .error .unclosedClass
  | c :: cs =>
    if c == ']' && !first then
      .ok ((if inRange then ('-', '-') :: ranges else ranges).reverse, count + 1)
    else if inRange then
      match closeRange c ranges with
      | .error fault => .error fault
      | .ok ranges => classRanges false false ranges (count + 1) cs
    else if c == '-' && !first then classRanges false true ranges (count + 1) cs
    else classRanges false false ((c, c) :: ranges) (count + 1) cs

def readClass (cs : List Char) : Except GlobFault (GlobToken × Nat) :=
  match cs with
  | '!' :: rest | '^' :: rest =>
    (classRanges true false [] 1 rest).map fun (ranges, count) => (.oneOf true ranges, count)
  | _ => (classRanges true false [] 0 cs).map fun (ranges, count) => (.oneOf false ranges, count)

/-! ## The parser -/

/-- A branch under way, and the groups of alternates around it, innermost first:
for each its finished branches and the branch that it stands in.  Tokens and
branches are in reverse order. -/
structure Partial where
  branch : List GlobToken
  groups : List (List (List GlobToken) × List GlobToken)
  deriving Repr

namespace Partial

def push (p : Partial) (token : GlobToken) : Partial := { p with branch := token :: p.branch }

def openGroup (p : Partial) : Partial := ⟨[], ([], p.branch) :: p.groups⟩

def comma (p : Partial) : Partial :=
  match p.groups with
  | [] => p.push (.literal ',')
  | (finished, outer) :: groups => ⟨[], (p.branch.reverse :: finished, outer) :: groups⟩

def closeGroup (p : Partial) : Except GlobFault Partial :=
  match p.groups with
  | [] => .error .unopenedAlternates
  | (finished, outer) :: groups =>
    .ok ⟨.alternates (p.branch.reverse :: finished).reverse :: outer, groups⟩

def widen (p : Partial) (token : GlobToken) : Partial :=
  match p.branch with
  | .anyParents :: _ | .anyBelow :: _ => p
  | _ => { p with branch := token :: p.branch.tail }

/-- Takes in `**` before `rest`, `last` being the character in front of it.  Gives
also whether a separator after it belongs to it. -/
def doubleStar (p : Partial) (last : Option Char) (rest : List Char) : Partial × Bool :=
  let twoStars := ((p.push .star).push .star, false)
  let atEdge := last == some '/' ||
    (!p.groups.isEmpty && (last == some ',' || last == some '\x7b'))
  if p.branch.isEmpty then
    match rest with
    | [] => (p.push .anyParents, false)
    | '/' :: _ => (p.push .anyParents, true)
    | _ => twoStars
  else if !atEdge then twoStars
  else match rest with
    | [] => (p.widen .anyBelow, false)
    | '/' :: _ => (p.widen .anyBetween, true)
    | c :: _ =>
      if (c == ',' || c == '\x7d') && !p.groups.isEmpty then (p.widen .anyBelow, false)
      else twoStars

end Partial

/-- Parses from the character after `last` on; once a class has been found open,
`classes` is off and `[` stands for itself. -/
def parseFrom (openClassLiteral classes : Bool) (last : Option Char) (p : Partial) :
    List Char → Except GlobFault (List GlobToken)
  | [] => if p.groups.isEmpty then .ok p.branch.reverse else .error .unclosedAlternates
  | c :: cs =>
    match c with
    | '?' => parseFrom openClassLiteral classes c (p.push .any) cs
    | '\x7b' => parseFrom openClassLiteral classes c p.openGroup cs
    | '\x7d' =>
      match p.closeGroup with
      | .error fault => .error fault
      | .ok p => parseFrom openClassLiteral classes c p cs
    | ',' => parseFrom openClassLiteral classes c p.comma cs
    | '\\' =>
      match cs with
      | [] => .error .danglingEscape
      | escaped :: cs => parseFrom openClassLiteral classes escaped (p.push (.literal escaped)) cs
    | '*' =>
      match cs with
      | '*' :: cs =>
        match p.doubleStar last cs with
        | (p, true) => parseFrom openClassLiteral classes '/' p (cs.drop 1)
        | (p, false) => parseFrom openClassLiteral classes '*' p cs
      | cs => parseFrom openClassLiteral classes c (p.push .star) cs
    | '[' =>
      if classes then
        match readClass cs with
        | .ok (token, count) =>
          parseFrom openClassLiteral classes ']' (p.push token) (cs.drop count)
        | .error .unclosedClass =>
          if openClassLiteral then
            parseFrom openClassLiteral false c (p.push (.literal c)) cs
          else .error .unclosedClass
        | .error fault => .error fault
      else parseFrom openClassLiteral classes c (p.push (.literal c)) cs
    | c => parseFrom openClassLiteral classes c (p.push (.literal c)) cs
  termination_by cs => cs.length
  decreasing_by
    all_goals simp only [List.length_drop, List.length_cons]
    all_goals omega

def parse? (options : GlobOptions) (glob : String) : Except GlobFault Glob :=
  (parseFrom options.openClassLiteral true none ⟨[], []⟩ glob.toList).map
    (⟨·, options.crossing⟩)

end Glob

end Stencil
