import Stencil.Span
import Stencil.Target.Bracket
/-!
# Targets

A target is a source text with a list of tokens that tile it and the bracket
structure of the tokens.  Tokens come from the scanner or from the caller; in
either case they are checked.
-/

namespace Stencil

structure Target.Token where
  kind : LexemeKind
  span : Span
  deriving DecidableEq, Repr

structure Target where
  source : String
  lexemes : Array Lexeme
  /-- Where each token starts, and where the last one stops. -/
  offsets : Array Nat
  /-- The source text from each token on. -/
  unread : Array (List Char)
  partners : Array Nat
  scopes : Array Nat

/-! ## Errors -/

inductive TargetFault where
  | notTiling
  | outOfBounds
  | splitsCharacter
  | notCovering
  | mismatchedCloser
  | unmatchedCloser
  | unclosedOpener
  deriving DecidableEq, Repr

def TargetFault.message : TargetFault → String
  | notTiling => "tokens do not tile the source"
  | outOfBounds => "token span is empty or out of bounds"
  | splitsCharacter => "token ends inside a character"
  | notCovering => "tokens do not cover the source"
  | mismatchedCloser => "mismatched closing bracket"
  | unmatchedCloser => "unmatched closing bracket"
  | unclosedOpener => "unclosed bracket"

structure TargetError where
  offset : Nat
  fault : TargetFault
  deriving DecidableEq, Repr

def TargetError.message (e : TargetError) : String :=
  s!"malformed target at offset {e.offset}: {e.fault.message}"

namespace Target

/-! ## Building -/

/-- Cuts the source along the tokens.  `start` is where the next token has to
start, `length` the length of the whole source and `cs` the source from
`start` on. -/
def cut (length start : Nat) (cs : List Char) : List Token → Except TargetError (List Lexeme)
  | [] => if start = length then .ok [] else .error ⟨start, .notCovering⟩
  | t :: ts =>
    if t.span.start ≠ start then .error ⟨start, .notTiling⟩
    else if t.span.stop ≤ start ∨ length < t.span.stop then .error ⟨start, .outOfBounds⟩
    else match splitBytes? (t.span.stop - start) cs with
      | none => .error ⟨t.span.stop, .splitsCharacter⟩
      | some (text, rest) => (cut length t.span.stop rest ts).map (⟨t.kind, text⟩ :: ·)

def startsFrom (start : Nat) : List Lexeme → List Nat
  | [] => [start]
  | l :: ls => start :: startsFrom (start + byteLength l.text) ls

def suffixTexts : List Lexeme → List (List Char)
  | [] => [[]]
  | l :: ls =>
    let texts := suffixTexts ls
    (l.text ++ texts.headD []) :: texts

def bracketError (offsets : Array Nat) : BracketFault → TargetError
  | .mismatched i => ⟨offsets.getD i 0, .mismatchedCloser⟩
  | .unmatched i => ⟨offsets.getD i 0, .unmatchedCloser⟩
  | .unclosed i => ⟨offsets.getD i 0, .unclosedOpener⟩

def ofLexemes? (source : String) (lexemes : List Lexeme) : Except TargetError Target :=
  let kinds := lexemes.map (·.kind)
  let offsets := (startsFrom 0 lexemes).toArray
  match bracketPairs 0 [] kinds with
  | .error fault => .error (bracketError offsets fault)
  | .ok pairs =>
    let partners := partnerTable lexemes.length pairs
    .ok {
      source
      lexemes := lexemes.toArray
      offsets
      unread := (suffixTexts lexemes).toArray
      partners
      scopes := (scopeEnds lexemes.length (fun i => partners.getD i 0) 0 [] kinds).toArray
    }

def ofTokens? (source : String) (tokens : List Token) : Except TargetError Target :=
  let cs := source.toList
  match cut (byteLength cs) 0 cs tokens with
  | .error e => .error e
  | .ok lexemes => ofLexemes? source lexemes

def place (start : Nat) : List Lexeme → List Token
  | [] => []
  | l :: ls =>
    let stop := start + byteLength l.text
    ⟨l.kind, ⟨start, stop⟩⟩ :: place stop ls

def scan (source : String) : List Token := place 0 (Stencil.lexemes source.toList)

def tokenize (source : String) : Except TargetError Target := ofTokens? source (scan source)

/-! ## Reading -/

def size (t : Target) : Nat := t.lexemes.size

def kind? (t : Target) (i : Nat) : Option LexemeKind := t.lexemes[i]?.map (·.kind)

/-- Where token `i` starts; the end of the source from the last token on. -/
def offset (t : Target) (i : Nat) : Nat := t.offsets.getD i (t.offsets.getD t.size 0)

def partner (t : Target) (i : Nat) : Nat := t.partners.getD i 0

/-- The closer of the innermost group around token `i`, or the number of tokens. -/
def scopeEnd (t : Target) (i : Nat) : Nat := t.scopes.getD i t.size

def isOpening (t : Target) (i : Nat) : Bool :=
  match t.kind? i with
  | some (.opening _) => true
  | _ => false

def after (t : Target) (i : Nat) : Nat :=
  if t.isOpening i then max i (t.partner i) + 1 else i + 1

def text (t : Target) (i j : Nat) : List Char :=
  takeBytes (t.offset j - t.offset i) (t.unread.getD i [])

def span (t : Target) (i j : Nat) : Span := ⟨t.offset i, t.offset j⟩

def slice (t : Target) (s : Span) : String :=
  String.ofList (sliceBytes s.start s.stop t.source.toList)

end Target

end Stencil
