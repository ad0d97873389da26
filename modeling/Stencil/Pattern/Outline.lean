import Stencil.Pattern.Basic
import Stencil.Text.Escape
/-!
# Outlines

A pattern as an indented tree, one line per item, items numbered within their
block.
-/

namespace Stencil

namespace Pattern

def outlineLines (depth index : Nat) : Pattern → List String
  | nil => []
  | hole h _ rest => line s!"HoleNode({h.label})" :: rest.outlineLines depth (index + 1)
  | text content _ rest =>
    line s!"TextNode({escapeText content})" :: rest.outlineLines depth (index + 1)
  | block _ body rest =>
    line s!"BlockNode({body.size} children):" :: body.outlineLines (depth + 1) 0 ++
      rest.outlineLines depth (index + 1)
where
  line (shown : String) : String :=
    "\n" ++ String.ofList (List.replicate (2 * depth) ' ') ++ s!"{index}: {shown}"

def outline (p : Pattern) : String :=
  String.join (s!"PatternNode({p.size} children):" :: p.outlineLines 1 0)

def itemOutline : Pattern → String
  | nil => ""
  | hole h _ _ => s!"HoleNode({h.label})"
  | text content _ _ => s!"TextNode({escapeText content})"
  | block _ body _ => String.join (s!"BlockNode({body.size} children):" :: body.outlineLines 1 0)

end Pattern

end Stencil
