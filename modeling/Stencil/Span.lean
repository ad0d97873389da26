/-!
# Spans

Half-open ranges of byte offsets.
-/

namespace Stencil

structure Span where
  start : Nat
  stop : Nat
  deriving DecidableEq, Repr, Inhabited

namespace Span

def length (s : Span) : Nat := s.stop - s.start

def isEmpty (s : Span) : Bool := s.start == s.stop

end Span

end Stencil
