import Stencil.Text.Blank
import Stencil.Text.Utf8
/-!
# Lexemes of source text

The scanner of C-family source text.  The lexemes of a text, put together, are
the text.
-/

namespace Stencil

inductive Delimiter where
  | paren
  | bracket
  | brace
  deriving DecidableEq, Repr

namespace Delimiter

def ofOpening? : Char → Option Delimiter
  | '(' => some paren
  | '[' => some bracket
  | '\x7b' => some brace
  | _ => none

def ofClosing? : Char → Option Delimiter
  | ')' => some paren
  | ']' => some bracket
  | '\x7d' => some brace
  | _ => none

end Delimiter

inductive LexemeKind where
  | blank
  /-- An identifier, keyword or number. -/
  | word
  /-- A string, character or raw string. -/
  | literal
  | comment
  /-- Any other single character. -/
  | punct
  | opening (d : Delimiter)
  | closing (d : Delimiter)
  deriving DecidableEq, Repr

structure Lexeme where
  kind : LexemeKind
  text : List Char
  deriving DecidableEq, Repr

/-! ## Runs

Each of these gives the part of its argument that belongs to the lexeme. -/

def isWordChar (c : Char) : Bool := c.isAlphanum || c == '_' || 0x80 ≤ c.toNat

/-- The inside of a quoted literal and its closing quote; a backslash takes the
next character with it, and a line feed ends the literal without belonging to
it. -/
def quotedRun (quote : Char) : List Char → List Char
  | [] => []
  | ['\\'] => ['\\']
  | '\\' :: c :: cs => '\\' :: c :: quotedRun quote cs
  | c :: cs =>
    if c == '\n' then []
    else if c == quote then [c]
    else c :: quotedRun quote cs

def blockCommentRun : List Char → List Char
  | [] => []
  | '*' :: '/' :: _ => ['*', '/']
  | c :: cs => c :: blockCommentRun cs

def rawRun : List Char → List Char
  | [] => []
  | c :: cs => if c == '\x60' then [c] else c :: rawRun cs

/-- After an apostrophe: a character literal, or a lifetime or label, which is a
word. -/
def apostropheRun (cs : List Char) : LexemeKind × List Char :=
  match cs with
  | [] => (.literal, [])
  | c :: cs' =>
    if c != '\\' && cs'.head? == some '\'' then (.literal, [c, '\''])
    else if c != '\\' && isWordChar c then (.word, cs.takeWhile isWordChar)
    else (.literal, quotedRun '\'' cs)

def lexemeRun (c : Char) (cs : List Char) : LexemeKind × List Char :=
  if isBlank c then (.blank, cs.takeWhile isBlank)
  else if c == '/' && cs.head? == some '/' then (.comment, cs.takeWhile (· != '\n'))
  else if c == '/' && cs.head? == some '*' then (.comment, '*' :: blockCommentRun cs.tail)
  else if c == '"' then (.literal, quotedRun '"' cs)
  else if c == '\'' then apostropheRun cs
  else if c == '\x60' then (.literal, rawRun cs)
  else if isWordChar c then (.word, cs.takeWhile isWordChar)
  else match Delimiter.ofOpening? c, Delimiter.ofClosing? c with
    | some d, _ => (.opening d, [])
    | none, some d => (.closing d, [])
    | none, none => (.punct, [])

/-! ## The scanner -/

def lexemes : List Char → List Lexeme
  | [] => []
  | c :: cs =>
    let run := lexemeRun c cs
    ⟨run.1, c :: run.2⟩ :: lexemes (cs.drop run.2.length)
  termination_by cs => cs.length
  decreasing_by simp only [List.length_drop, List.length_cons]; omega

end Stencil
