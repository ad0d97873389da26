import Stencil.Yaml.Basic
/-!
# Places in a YAML text

Where the reading of a text stands.  Besides the line feed, the line and the
paragraph separator end a line; the other ways to end one are unified before.
-/

namespace Stencil.Yaml

def isBlank (c : Char) : Bool := c == ' ' || c == '\t'

def isBreak (c : Char) : Bool := c == '\n' || c == '\u2028' || c == '\u2029'

def unifyBreaks : List Char → List Char
  | [] => []
  | '\r' :: '\n' :: cs => '\n' :: unifyBreaks cs
  | '\r' :: cs | '\u0085' :: cs => '\n' :: unifyBreaks cs
  | c :: cs => c :: unifyBreaks cs

def startsGap : List Char → Bool
  | [] => true
  | c :: _ => isBlank c || isBreak c

structure Place where
  line : Nat
  column : Nat
  deriving DecidableEq, Repr

def Place.past (place : Place) (c : Char) : Place :=
  if isBreak c then ⟨place.line + 1, 0⟩ else ⟨place.line, place.column + 1⟩

structure Cursor where
  rest : List Char
  place : Place
  deriving DecidableEq, Repr

namespace Cursor

def column (c : Cursor) : Nat := c.place.column

def pass (c : Cursor) (count : Nat) : Cursor :=
  ⟨c.rest.drop count, (c.rest.take count).foldl Place.past c.place⟩

def gap (c : Cursor) : List Char := c.rest.takeWhile fun char => isBlank char || isBreak char

def atMarker (c : Cursor) : Bool :=
  c.column == 0 && (match c.rest with
    | '-' :: '-' :: '-' :: rest | '.' :: '.' :: '.' :: rest => startsGap rest
    | _ => false)

end Cursor

end Stencil.Yaml
