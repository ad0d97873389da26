import Stencil.Target.Basic
/-!
# Text segments

Literal text splits into segments: runs of other characters, which have to be
found as they are, and runs of blanks, which match any run of blanks.  A blank
segment takes all blanks that stand there.
-/

namespace Stencil

inductive Segment where
  | literal (text : List Char)
  | blank
  deriving DecidableEq, Repr

def segments : List Char → List Segment
  | [] => []
  | c :: cs =>
    if isBlank c then
      match segments cs with
      | .blank :: rest => .blank :: rest
      | rest => .blank :: rest
    else
      match segments cs with
      | .literal text :: rest => .literal (c :: text) :: rest
      | rest => .literal [c] :: rest

/-! ## Reading

The readers stay within `room` bytes and give what is left, with the room left. -/

def readLiteral? (text cs : List Char) (room : Nat) : Option (List Char × Nat) :=
  match text, cs with
  | [], cs => some (cs, room)
  | _ :: _, [] => none
  | l :: ls, c :: cs =>
    if l = c ∧ c.utf8Size ≤ room then readLiteral? ls cs (room - c.utf8Size) else none

def skipBlanks (cs : List Char) (room : Nat) : List Char × Nat :=
  match cs with
  | [] => ([], room)
  | c :: rest =>
    if isBlank c ∧ c.utf8Size ≤ room then skipBlanks rest (room - c.utf8Size) else (cs, room)

def readSegments? (segs : List Segment) (cs : List Char) (room : Nat) :
    Option (List Char × Nat) :=
  match segs with
  | [] => some (cs, room)
  | .literal text :: segs =>
    match readLiteral? text cs room with
    | none => none
    | some (rest, left) => readSegments? segs rest left
  | .blank :: segs =>
    let (rest, left) := skipBlanks cs room
    if left = room then none else readSegments? segs rest left

namespace Target

/-- The token that starts at `offset`, looked for from token `i` on; the number
of tokens at the end of the source. -/
def boundary? (t : Target) (offset i : Nat) : Option Nat :=
  if t.offset i = offset then some i
  else if i < t.size ∧ t.offset i < offset then t.boundary? offset (i + 1)
  else none
  termination_by t.size - i

/-- Where segments read from token `i` end, as a token index no later than
`limit`. -/
def readAt? (t : Target) (segs : List Segment) (i limit : Nat) : Option Nat :=
  let stop := t.offset limit
  match readSegments? segs (t.unread.getD i []) (stop - t.offset i) with
  | none => none
  | some (_, left) => t.boundary? (stop - left) i

end Target

end Stencil
