import Stencil.Pattern.Basic
import Stencil.Pattern.Token
/-!
# Compiling patterns

Braces of a token list are checked from left to right, then the pattern is
assembled from right to left: what follows a token is known before the token is
put in front of it, so no list is ever turned round.  A parser can be asked
again after it has failed: it stands after the brace that it has rejected.
-/

namespace Stencil

/-! ## Errors -/

inductive BraceError where
  /-- A closing brace that no open one precedes. -/
  | unmatched (offset : Nat)
  /-- The innermost block still open at the end. -/
  | unclosed (offset : Nat)
  deriving DecidableEq, Repr

namespace BraceError

def offset : BraceError → Nat
  | unmatched n | unclosed n => n

def message : BraceError → String
  | unmatched n => s!"unmatched `\x7d` at offset {n}"
  | unclosed n => s!"block opened at offset {n} is never closed"

end BraceError

inductive CompileError where
  | hole (error : HoleError)
  | brace (error : BraceError)
  deriving DecidableEq, Repr

namespace CompileError

def offset : CompileError → Nat
  | hole e => e.offset
  | brace e => e.offset

def message : CompileError → String
  | hole e => e.message
  | brace e => e.message

end CompileError

/-! ## Assembling -/

/-- The first brace defect in tokens without an end, and the tokens after it;
`opened` holds the offsets of the braces still open, innermost first. -/
def braceDefect? (opened : List Nat) : List Token → Option (BraceError × List Token)
  | [] => opened.head?.map fun offset => (.unclosed offset, [])
  | t :: ts =>
    match t.kind with
    | .openBrace => braceDefect? (t.offset :: opened) ts
    | .closeBrace =>
      match opened with
      | [] => some (.unmatched t.offset, ts)
      | _ :: outer => braceDefect? outer ts
    | _ => braceDefect? opened ts

namespace Pattern

def consText (value : String) (offset : Nat) : Pattern → Pattern
  | text content _ rest => text (value ++ content) offset rest
  | p => text value offset p

/-- Reads tokens from the right.  The first pattern is what has been read since
the last closing brace still waiting for its partner; the others are what follows
those braces, innermost first. -/
def assemble : List Token → Pattern × List Pattern
  | [] => (nil, [])
  | t :: ts =>
    let (current, outer) := assemble ts
    match t.kind with
    | .text | .blank => (consText t.value t.offset current, outer)
    | .hole h => (hole h t.offset current, outer)
    | .closeBrace => (nil, current :: outer)
    | .openBrace => (block t.offset current (outer.headD nil), outer.tail)
    | .finish => (current, outer)

def ofTokens (tokens : List Token) : Pattern := (assemble tokens).1

end Pattern

/-! ## The parser -/

structure Parser where
  rest : List Token
  deriving DecidableEq, Repr

namespace Parser

def parse (p : Parser) : Except BraceError Pattern × Parser :=
  let tokens := p.rest.takeWhile (·.kind != .finish)
  let after := p.rest.dropWhile (·.kind != .finish)
  match braceDefect? [] tokens with
  | some (error, unread) => (.error error, ⟨unread ++ after⟩)
  | none => (.ok (Pattern.ofTokens tokens), ⟨after⟩)

end Parser

namespace Pattern

def compile (pattern : String) : Except CompileError Pattern :=
  match lex pattern with
  | .error e => .error (.hole e)
  | .ok tokens =>
    match (Parser.mk tokens).parse.1 with
    | .error e => .error (.brace e)
    | .ok p => .ok p

end Pattern

end Stencil
