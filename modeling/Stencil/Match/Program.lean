import Stencil.Match.Segment
import Stencil.Pattern.Basic
/-!
# Programs

What the search follows: one instruction for each step of the walk through a
pattern.
-/

namespace Stencil

inductive Instr where
  | text (segs : List Segment)
  | hole (hole : Hole)
  | enter
  | leave
  deriving DecidableEq, Repr

def Step.instr : Step → Instr
  | .hole h _ => .hole h
  | .text content _ => .text (segments content.toList)
  | .enter .. => .enter
  | .exit .. => .leave

def Pattern.program (p : Pattern) : List Instr := p.steps.map Step.instr

def startsBlank : List Instr → Bool
  | .text (.blank :: _) :: _ => true
  | _ => false

end Stencil
