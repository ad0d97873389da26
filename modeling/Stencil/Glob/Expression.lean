import Stencil.Glob.Basic
import Stencil.Text.Utf8
/-!
# Expressions over bytes

The expression over the bytes of a path that a glob stands for, its text and its
depth.  Wildcards that do not cross directories leave the separator out, and
branches that ask for nothing are no branches.
-/

namespace Stencil

def slash : UInt8 := 47

/-! ## Sets of bytes -/

inductive ByteSet where
  | byte (b : UInt8)
  | any
  | oneOf (negated : Bool) (ranges : List (UInt8 × UInt8))
  deriving DecidableEq, Repr

namespace ByteSet

def holds : ByteSet → UInt8 → Bool
  | byte b, c => b == c
  | any, _ => true
  | oneOf negated ranges, c =>
    ranges.any (fun (least, greatest) => least ≤ c && c ≤ greatest) != negated

def depth : ByteSet → Nat
  | byte _ | any => 0
  | oneOf _ ranges => if ranges.length > 1 then 2 else 1

def wildcard (crossing : Bool) : ByteSet :=
  if crossing then any else oneOf true [(slash, slash)]

end ByteSet

/-! ## Expressions -/

inductive ByteExpr where
  | one (bytes : ByteSet)
  /-- Any number of bytes, none included. -/
  | many (bytes : ByteSet)
  | optional (bytes : ByteSet)
  | choice (branches : List (List ByteExpr))
  deriving Repr

namespace ByteExpr

mutual

/-- How many classes, repetitions, groups, choices and sequences stand one within
the other; a sequence or choice of one part is that part. -/
def depth : ByteExpr → Nat
  | one bytes => bytes.depth
  | many bytes | optional bytes => bytes.depth + 1
  | choice branches => branchesDepth branches + (if branches.length > 1 then 2 else 1)

def sequenceDepth : List ByteExpr → Nat
  | [] => 0
  | e :: es => max e.depth (sequenceDepth es)

def branchesDepth : List (List ByteExpr) → Nat
  | [] => 0
  | branch :: branches =>
    max (sequenceDepth branch + (if branch.length > 1 then 1 else 0)) (branchesDepth branches)

end

/-! ## Text -/

def isMeta (c : Char) : Bool := "\\.+*?()|[]\x7b\x7d^$#&-~".contains c

def byteText (b : UInt8) : String :=
  let c := Char.ofNat b.toNat
  if b < 0x80 then if isMeta c then "\\" ++ c.toString else c.toString
  else "\\x" ++ String.ofList (Nat.toDigits 16 b.toNat)

def rangeText (range : UInt8 × UInt8) : String :=
  if range.1 == range.2 then byteText range.1 else byteText range.1 ++ "-" ++ byteText range.2

def setText : ByteSet → String
  | .byte b => byteText b
  | .any => "."
  | .oneOf negated ranges =>
    "[" ++ (if negated then "^" else "") ++ String.join (ranges.map rangeText) ++ "]"

mutual

def text : ByteExpr → String
  | one bytes => setText bytes
  | many bytes => setText bytes ++ "*"
  | optional bytes => setText bytes ++ "?"
  | choice branches => "(?:" ++ "|".intercalate (branchTexts branches) ++ ")"

def sequenceText : List ByteExpr → String
  | [] => ""
  | e :: es => e.text ++ sequenceText es

def branchTexts : List (List ByteExpr) → List String
  | [] => []
  | branch :: branches => sequenceText branch :: branchTexts branches

end

end ByteExpr

/-! ## The expression of a glob -/

namespace GlobToken

/-- The byte ranges of a range of characters.  The range runs from the last byte
of the one to the first byte of the other, and their other bytes count singly. -/
def byteRanges (range : Char × Char) : List (UInt8 × UInt8) :=
  let low := String.utf8EncodeChar range.1
  let high := String.utf8EncodeChar range.2
  if range.1 = range.2 then low.map fun b => (b, b)
  else
    low.dropLast.map (fun b => (b, b)) ++ [(low.getLastD 0, high.headD 0)] ++
      high.tail.map fun b => (b, b)

mutual

def expression (crossing : Bool) : GlobToken → List ByteExpr
  | literal c => (String.utf8EncodeChar c).map fun b => .one (.byte b)
  | any => [.one (.wildcard crossing)]
  | star => [.many (.wildcard crossing)]
  | anyParents => [.choice [[.optional (.byte slash)], [.many .any, .one (.byte slash)]]]
  | anyBelow => [.one (.byte slash), .many .any]
  | anyBetween =>
    [.choice [[.one (.byte slash)], [.one (.byte slash), .many .any, .one (.byte slash)]]]
  | oneOf negated ranges => [.one (.oneOf negated (ranges.flatMap byteRanges))]
  | alternates branches =>
    match branchExpressions crossing branches with
    | [] => []
    | parts => [.choice parts]

def sequenceExpression (crossing : Bool) : List GlobToken → List ByteExpr
  | [] => []
  | token :: tokens => token.expression crossing ++ sequenceExpression crossing tokens

def branchExpressions (crossing : Bool) : List (List GlobToken) → List (List ByteExpr)
  | [] => []
  | branch :: branches =>
    match sequenceExpression crossing branch with
    | [] => branchExpressions crossing branches
    | part => part :: branchExpressions crossing branches

end

end GlobToken

namespace Glob

def expression (g : Glob) : List ByteExpr :=
  match g.tokens with
  | [.anyParents] => [.many .any]
  | tokens => GlobToken.sequenceExpression g.crossing tokens

def expressionText (g : Glob) : String :=
  "(?-u)^" ++ ByteExpr.sequenceText g.expression ++ "$"

def depth (g : Glob) : Nat := ByteExpr.sequenceDepth g.expression + 1

end Glob

end Stencil
