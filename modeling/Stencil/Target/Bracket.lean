import Stencil.Target.Lexeme
/-!
# Bracket structure

Which bracket of a token list belongs to which, and where the group ends that a
token stands in.  Tokens are known by their index.
-/

namespace Stencil

inductive BracketFault where
  /-- A closer whose innermost open bracket has another shape. -/
  | mismatched (index : Nat)
  | unmatched (index : Nat)
  /-- The innermost bracket still open at the end. -/
  | unclosed (index : Nat)
  deriving DecidableEq, Repr

/-- The pairs of opener and closer, in the order of the closers; `opened` holds
the brackets still open, innermost first, and `index` is that of the first
token. -/
def bracketPairs (index : Nat) (opened : List (Nat × Delimiter)) :
    List LexemeKind → Except BracketFault (List (Nat × Nat))
  | [] =>
    match opened with
    | [] => .ok []
    | (opener, _) :: _ => .error (.unclosed opener)
  | .opening d :: kinds => bracketPairs (index + 1) ((index, d) :: opened) kinds
  | .closing d :: kinds =>
    match opened with
    | [] => .error (.unmatched index)
    | (opener, d') :: outer =>
      if d' = d then (bracketPairs (index + 1) outer kinds).map ((opener, index) :: ·)
      else .error (.mismatched index)
  | _ :: kinds => bracketPairs (index + 1) opened kinds

/-- For each bracket the index of the other one of its pair, 0 elsewhere. -/
def partnerTable (count : Nat) (pairs : List (Nat × Nat)) : Array Nat :=
  pairs.foldl
    (fun table (opener, closer) =>
      (table.setIfInBounds opener closer).setIfInBounds closer opener)
    (Array.replicate count 0)

/-- For each token the closer of the innermost group around it: itself for a
closer, `count` where no group is.  `enclosing` holds the closers of the groups
around the first token, innermost first. -/
def scopeEnds (count : Nat) (partner : Nat → Nat) (index : Nat) (enclosing : List Nat) :
    List LexemeKind → List Nat
  | [] => []
  | .closing _ :: kinds =>
    index :: scopeEnds count partner (index + 1) enclosing.tail kinds
  | .opening _ :: kinds =>
    enclosing.headD count ::
      scopeEnds count partner (index + 1) (partner index :: enclosing) kinds
  | _ :: kinds =>
    enclosing.headD count :: scopeEnds count partner (index + 1) enclosing kinds

end Stencil
