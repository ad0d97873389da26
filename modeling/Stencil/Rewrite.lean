import Stencil.Match.Find
/-!
# Rewriting

A template is a pattern whose holes are filled with bound text.  Bound text is
never read as template syntax again.
-/

namespace Stencil

structure UnboundHole where
  name : String
  offset : Nat
  deriving DecidableEq, Repr

def UnboundHole.message (e : UnboundHole) : String :=
  s!"template hole `{e.name}` at offset {e.offset} has no binding"

namespace Pattern

/-- The template with its holes filled, or the first hole in the text that has
no binding. -/
def fill (bindings : NameMap String) : Pattern → Except UnboundHole String
  | nil => .ok ""
  | hole h offset rest =>
    match bindings.find? h.name with
    | none => .error ⟨h.name, offset⟩
    | some value => (rest.fill bindings).map (value ++ ·)
  | text content _ rest => (rest.fill bindings).map (content ++ ·)
  | block _ body rest =>
    match body.fill bindings with
    | .error e => .error e
    | .ok inner => (rest.fill bindings).map fun outer => "\x7b" ++ inner ++ "\x7d" ++ outer

def unboundHoles (template pattern : Pattern) : List (Hole × Nat) :=
  template.holes.filter fun (h, _) => !pattern.hasHole h.name

/-- Replaces the matches in `source` from byte `cursor` on, which are in order of
their starts; a match that starts before the cursor is left as it is. -/
def rewriteFrom (template : Pattern) (source : List Char) (cursor : Nat) :
    List Match → Except UnboundHole (List Char)
  | [] => .ok (dropBytes cursor source)
  | m :: rest =>
    if m.span.start < cursor then template.rewriteFrom source cursor rest
    else match template.fill m.bindings with
      | .error e => .error e
      | .ok replacement =>
        (template.rewriteFrom source m.span.stop rest).map fun after =>
          sliceBytes cursor m.span.start source ++ replacement.toList ++ after

def rewriteAll (template : Pattern) (source : String) (found : List Match) :
    Except UnboundHole String :=
  (template.rewriteFrom source.toList 0 found).map String.ofList

end Pattern

end Stencil
