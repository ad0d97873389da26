import Stencil.Hole
import Stencil.Text.Blank
import Stencil.Text.Utf8
/-!
# Pattern tokens

The lexer of pattern text.  A hole is `:[name]` or `:[[name]]`; a text token
stops before a brace, a blank or the `:[` that opens a hole, so `:[` cannot be
written as plain text.  A lexer can be asked again after it has failed: it
stands after the part of the hole that it has read.
-/

namespace Stencil

inductive TokenKind where
  | text
  | hole (hole : Hole)
  | openBrace
  | closeBrace
  | blank
  | finish
  deriving DecidableEq, Repr

structure Token where
  kind : TokenKind
  /-- The text of the token, empty for `finish`. -/
  value : String
  offset : Nat
  deriving DecidableEq, Repr

inductive HoleError where
  | unterminated (offset : Nat)
  | emptyName (offset : Nat)
  deriving DecidableEq, Repr

namespace HoleError

def offset : HoleError → Nat
  | unterminated n | emptyName n => n

def message : HoleError → String
  | unterminated n => s!"unterminated hole at offset {n}"
  | emptyName n => s!"empty hole name at offset {n}"

end HoleError

/-! ## Single lexemes -/

inductive Lexed where
  | token (kind : TokenKind) (value rest : List Char)
  | malformed (error : Nat → HoleError) (read rest : List Char)

/-- The front of a text run: all before a brace, a blank or a `:[`. -/
def textRun : List Char → List Char
  | [] => []
  | [c] => if c == '\x7b' || c == '\x7d' || isBlank c then [] else [c]
  | c :: d :: cs =>
    if c == '\x7b' || c == '\x7d' || isBlank c || (c == ':' && d == '[') then []
    else c :: textRun (d :: cs)

def dropFront? : (front cs : List Char) → Option (List Char)
  | [], cs => some cs
  | _ :: _, [] => none
  | f :: fs, c :: cs => if f == c then dropFront? fs cs else none

def lexHole (quantifier : Quantifier) (cs : List Char) : Lexed :=
  let opening := quantifier.opening.toList
  let name := cs.takeWhile isNameChar
  let after := cs.dropWhile isNameChar
  match dropFront? quantifier.closing.toList after with
  | none => .malformed .unterminated (opening ++ name) after
  | some rest =>
    if name.isEmpty then .malformed .emptyName opening after
    else if isName name then
      .token (.hole ⟨String.ofList name, .any, quantifier⟩)
        (opening ++ name ++ quantifier.closing.toList) rest
    else .malformed .unterminated (opening ++ name) after

def lexeme (c : Char) (cs : List Char) : Lexed :=
  if c == '\x7b' then .token .openBrace [c] cs
  else if c == '\x7d' then .token .closeBrace [c] cs
  else if isBlank c then
    .token .blank (c :: cs.takeWhile isBlank) (cs.dropWhile isBlank)
  else match c, cs with
    | ':', '[' :: '[' :: rest => lexHole .block rest
    | ':', '[' :: rest => lexHole .one rest
    | _, _ =>
      let run := textRun cs
      .token .text (c :: run) (cs.drop run.length)

theorem length_of_dropFront? {front cs rest : List Char} (h : dropFront? front cs = some rest) :
    rest.length ≤ cs.length := by
  induction front generalizing cs with
  | nil => simp_all [dropFront?]
  | cons f fs ih =>
    cases cs with
    | nil => simp [dropFront?] at h
    | cons c cs =>
      rw [dropFront?] at h
      split at h
      · exact Nat.le_succ_of_le (ih h)
      · simp at h

theorem length_of_lexHole {q : Quantifier} {cs value rest : List Char} {kind : TokenKind}
    (h : lexHole q cs = .token kind value rest) : rest.length ≤ cs.length := by
  unfold lexHole at h
  dsimp only at h
  split at h
  · simp at h
  · rename_i rest' heq
    have := length_of_dropFront? heq
    have : (cs.dropWhile isNameChar).length ≤ cs.length := (List.dropWhile_suffix _).length_le
    split at h
    · simp at h
    · split at h
      · simp only [Lexed.token.injEq] at h
        obtain ⟨_, _, rfl⟩ := h
        omega
      · simp at h

theorem length_of_lexeme {c : Char} {cs value rest : List Char} {kind : TokenKind}
    (h : lexeme c cs = .token kind value rest) : rest.length ≤ cs.length := by
  unfold lexeme at h
  split at h
  · simp_all
  · split at h
    · simp_all
    · split at h
      · simp only [Lexed.token.injEq] at h
        obtain ⟨_, _, rfl⟩ := h
        exact (List.dropWhile_suffix isBlank).length_le
      · split at h
        · have := length_of_lexHole h
          simp only [List.length_cons]
          omega
        · have := length_of_lexHole h
          simp only [List.length_cons]
          omega
        · simp only [Lexed.token.injEq] at h
          obtain ⟨_, _, rfl⟩ := h
          simp

/-! ## The lexer -/

structure Lexer where
  rest : List Char
  offset : Nat
  deriving DecidableEq, Repr

namespace Lexer

def ofString (pattern : String) : Lexer := ⟨pattern.toList, 0⟩

def tokenize : Lexer → Except HoleError (List Token) × Lexer
  | ⟨[], offset⟩ => (.ok [⟨.finish, "", offset⟩], ⟨[], offset⟩)
  | ⟨c :: cs, offset⟩ =>
    match h : lexeme c cs with
    | .malformed error read rest => (.error (error offset), ⟨rest, offset + byteLength read⟩)
    | .token kind value rest =>
      have : rest.length ≤ cs.length := length_of_lexeme h
      match tokenize ⟨rest, offset + byteLength value⟩ with
      | (.ok tokens, l) => (.ok (⟨kind, String.ofList value, offset⟩ :: tokens), l)
      | failed => failed
  termination_by l => l.rest.length
  decreasing_by exact Nat.lt_succ_of_le this

end Lexer

def lex (pattern : String) : Except HoleError (List Token) :=
  (Lexer.ofString pattern).tokenize.1

end Stencil
