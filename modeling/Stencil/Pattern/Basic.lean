import Stencil.Hole
import Stencil.Text.Blank
/-!
# Patterns

A pattern is a sequence of holes, texts and brace blocks, and the body of a
block is a pattern again.  Each item carries the byte offset at which it was
written.  Two patterns are alike when they differ at most in offsets and in the
length and kind of their runs of blanks.
-/

namespace Stencil

inductive Pattern where
  | nil
  | hole (hole : Hole) (offset : Nat) (rest : Pattern)
  | text (content : String) (offset : Nat) (rest : Pattern)
  /-- A body in braces; the braces are not part of it. -/
  | block (offset : Nat) (body rest : Pattern)
  deriving DecidableEq, Repr, Inhabited

inductive Step where
  | hole (hole : Hole) (offset : Nat)
  | text (content : String) (offset : Nat)
  /-- Into a block with `size` items. -/
  | enter (offset size : Nat)
  | exit (offset : Nat)
  deriving DecidableEq, Repr

namespace Pattern

/-! ## Shape -/

/-- The number of items, those inside blocks not counted. -/
def size : Pattern → Nat
  | nil => 0
  | hole _ _ rest | text _ _ rest | block _ _ rest => rest.size + 1

def items : Pattern → List Pattern
  | nil => []
  | hole h offset rest => hole h offset nil :: rest.items
  | text content offset rest => text content offset nil :: rest.items
  | block offset body rest => block offset body nil :: rest.items

def steps : Pattern → List Step
  | nil => []
  | hole h offset rest => .hole h offset :: rest.steps
  | text content offset rest => .text content offset :: rest.steps
  | block offset body rest =>
    .enter offset body.size :: body.steps ++ .exit offset :: rest.steps

/-! ## Holes -/

def holes : Pattern → List (Hole × Nat)
  | nil => []
  | hole h offset rest => (h, offset) :: rest.holes
  | text _ _ rest => rest.holes
  | block _ body rest => body.holes ++ rest.holes

def holeNames (p : Pattern) : List String := (p.holes.map (·.1.name)).eraseDups

def hasHole (p : Pattern) (name : String) : Bool := p.holes.any fun (h, _) => h.name == name

def mapHoles (f : Hole → Hole) : Pattern → Pattern
  | nil => nil
  | hole h offset rest => hole (f h) offset (rest.mapHoles f)
  | text content offset rest => text content offset (rest.mapHoles f)
  | block offset body rest => block offset (body.mapHoles f) (rest.mapHoles f)

def constrain (name : String) (kind : CaptureKind) (p : Pattern) : Pattern :=
  p.mapHoles fun h => if h.name = name then { h with kind } else h

/-! ## Text -/

def source : Pattern → String
  | nil => ""
  | hole h _ rest => h.source ++ rest.source
  | text content _ rest => content ++ rest.source
  | block _ body rest => "\x7b" ++ body.source ++ "\x7d" ++ rest.source

end Pattern

/-! ## Likeness -/

namespace Step

def alike : Step → Step → Bool
  | hole h _, hole h' _ => h == h'
  | text content _, text content' _ => collapse content.toList == collapse content'.toList
  | enter .., enter .. => true
  | exit .., exit .. => true
  | _, _ => false

end Step

def alikeSteps : List Step → List Step → Bool
  | [], [] => true
  | s :: ss, t :: ts => s.alike t && alikeSteps ss ts
  | _, _ => false

def Pattern.alike (p q : Pattern) : Bool := alikeSteps p.steps q.steps

inductive Mark where
  | hole (hole : Hole)
  | text (collapsed : String)
  | enter
  | exit
  deriving DecidableEq, Repr, Hashable

def Step.mark : Step → Mark
  | hole h _ => .hole h
  | text content _ => .text (String.ofList (collapse content.toList))
  | enter .. => .enter
  | exit .. => .exit

def Pattern.marks (p : Pattern) : List Mark := p.steps.map Step.mark

instance : Hashable Pattern := ⟨fun p => hash p.marks⟩

end Stencil
