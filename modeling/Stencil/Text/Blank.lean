/-!
# Blanks

The blank characters and the collapsing of runs of them.  Two texts that
collapse to the same text are the same up to layout.  White space is a larger
class, which counts only where text is trimmed.
-/

namespace Stencil

def isBlank (c : Char) : Bool :=
  c == ' ' || c == '\t' || c == '\n' || c == '\x0c' || c == '\r'

def isBlankRun (cs : List Char) : Bool := !cs.isEmpty && cs.all isBlank

/-- Collapses runs of blanks; `inRun` says that the character before was one. -/
def collapseFrom (inRun : Bool) : List Char → List Char
  | [] => []
  | c :: cs =>
    if isBlank c then
      if inRun then collapseFrom true cs else ' ' :: collapseFrom true cs
    else c :: collapseFrom false cs

def collapse (cs : List Char) : List Char := collapseFrom false cs

/-! ## White space -/

def isWhiteSpace (c : Char) : Bool :=
  let n := c.toNat
  (9 ≤ n && n ≤ 13) || n == 0x20 || n == 0x85 || n == 0xa0 || n == 0x1680 ||
    (0x2000 ≤ n && n ≤ 0x200a) || n == 0x2028 || n == 0x2029 || n == 0x202f ||
    n == 0x205f || n == 0x3000

def trimEnd (cs : List Char) : List Char := (cs.reverse.dropWhile isWhiteSpace).reverse

def trim (text : String) : String :=
  String.ofList (trimEnd (text.toList.dropWhile isWhiteSpace))

end Stencil
