import Stencil.Yaml.Scalar
/-!
# YAML tokens

A text as a list of tokens.  Columns become tokens that open and close block
collections, and a key is marked in front, as soon as the colon behind it shows that
it is one.
-/

namespace Stencil.Yaml

inductive Token where
  /-- The first entry of a block sequence follows. -/
  | sequenceStart
  /-- The first entry of a block mapping follows. -/
  | mappingStart
  | blockEnd
  | openBracket
  | closeBracket
  | openBrace
  | closeBrace
  | comma
  | dash
  | key
  | colon
  | scalar (text : String) (plain : Bool)
  | documentStart
  | documentEnd
  deriving DecidableEq, Repr

structure Candidate where
  place : Place
  /-- How many tokens precede it. -/
  index : Nat
  /-- Nothing but a key may stand here. -/
  required : Bool
  deriving DecidableEq, Repr

/-- How far behind the start of a key its colon may stand. -/
def longestKey : Nat := 1024

def Candidate.isOpenAt (candidate : Candidate) (place : Place) : Bool :=
  candidate.place.line == place.line && place.column ≤ candidate.place.column + longestKey

structure Layout where
  cursor : Cursor
  /-- The tokens read, last first. -/
  tokens : List Token := []
  count : Nat := 0
  /-- The columns of the open block collections, innermost first. -/
  columns : List Nat := []
  candidate : Option Candidate := none
  /-- The candidates outside of each open flow collection, innermost first. -/
  outer : List (Option Candidate) := []
  /-- A key may stand here, or an entry of a block collection start. -/
  keyAllowed : Bool := true
  deriving Repr

namespace Layout

def inFlow (s : Layout) : Bool := !s.outer.isEmpty

def column (s : Layout) : Nat := s.cursor.column

/-! ## Keys -/

def dropCandidate? (s : Layout) : Option Layout :=
  if s.candidate.any (·.required) then none else some { s with candidate := none }

def dropStale? (s : Layout) : Option Layout :=
  if s.candidate.all (·.isOpenAt s.cursor.place) then some s else s.dropCandidate?

def addCandidate? (s : Layout) : Option Layout :=
  if s.keyAllowed then
    s.dropCandidate?.map fun s =>
      let required := !s.inFlow && s.columns.head? == some s.column
      { s with candidate := some ⟨s.cursor.place, s.count, required⟩ }
  else some s

/-! ## Tokens -/

def pushTo (s : Layout) (token : Token) (after : Cursor) : Layout :=
  { s with tokens := token :: s.tokens, count := s.count + 1, cursor := after }

def push (s : Layout) (token : Token) (length : Nat) : Layout :=
  s.pushTo token (s.cursor.pass length)

def insertAt (s : Layout) (index : Nat) (token : Token) : Layout :=
  { s with tokens := s.tokens.insertIdx (s.count - index) token, count := s.count + 1 }

def closeBlocks (s : Layout) (column : Option Nat) : Layout :=
  if s.inFlow then s
  else
    let isInner (c : Nat) : Bool := column.all (· < c)
    let closed := s.columns.takeWhile isInner
    { s with
      columns := s.columns.dropWhile isInner
      tokens := List.replicate closed.length .blockEnd ++ s.tokens
      count := s.count + closed.length }

def openBlock (s : Layout) (column index : Nat) (token : Token) : Layout :=
  if s.inFlow || s.columns.head?.any (column ≤ ·) then s
  else { s.insertAt index token with columns := column :: s.columns }

def addMarker? (s : Layout) (token : Token) : Option Layout :=
  (s.closeBlocks none).dropCandidate?.map fun s =>
    { s.push token 3 with keyAllowed := false }

def openFlow? (s : Layout) (token : Token) : Option Layout :=
  s.addCandidate?.map fun s =>
    { s.push token 1 with
      outer := s.candidate :: s.outer, candidate := none, keyAllowed := true }

def closeFlow? (s : Layout) (token : Token) : Option Layout :=
  s.dropCandidate?.map fun s =>
    { s.push token 1 with
      outer := s.outer.tail, candidate := s.outer.head?.join, keyAllowed := false }

def addComma? (s : Layout) : Option Layout :=
  s.dropCandidate?.map fun s => { s.push .comma 1 with keyAllowed := true }

def openEntry? (s : Layout) (token : Token) : Option Layout :=
  if s.inFlow then some s
  else if s.keyAllowed then some (s.openBlock s.column s.count token)
  else none

def addDash? (s : Layout) : Option Layout := do
  let s ← s.openEntry? .sequenceStart
  let s ← s.dropCandidate?
  return { s.push .dash 1 with keyAllowed := true }

def addQuestion? (s : Layout) : Option Layout := do
  let s ← s.openEntry? .mappingStart
  let s ← s.dropCandidate?
  return { s.push .key 1 with keyAllowed := !s.inFlow }

def addColon? (s : Layout) : Option Layout :=
  match s.candidate with
  | some key =>
    let s := (s.insertAt key.index .key).openBlock key.place.column key.index .mappingStart
    some { s.push .colon 1 with candidate := none, keyAllowed := false }
  | none =>
    (s.openEntry? .mappingStart).map fun s =>
      { s.push .colon 1 with keyAllowed := !s.inFlow }

def pushScalar (s : Layout) (text : List Char) (plain : Bool) (after : Cursor) : Layout :=
  s.pushTo (.scalar (String.ofList text) plain) after

def addBlock? (s : Layout) : Option Layout :=
  if s.inFlow then none
  else do
    let s ← s.dropCandidate?
    let (text, after) ← readBlock s.columns.head? s.cursor
    return { s.pushScalar text false after with keyAllowed := true }

def addQuoted? (s : Layout) (double : Bool) : Option Layout := do
  let s ← s.addCandidate?
  let (text, after) ← readQuoted double s.cursor
  return { s.pushScalar text false after with keyAllowed := false }

def addPlain? (s : Layout) : Option Layout := do
  let s ← s.addCandidate?
  let least := (s.columns.head?.map (· + 1)).getD 0
  let (text, fresh, after) ← readPlain s.inFlow least s.cursor
  return { s.pushScalar text true after with keyAllowed := fresh }

/-! ## Reading on -/

/-- What comes before a token: blanks, comments and line breaks, and a byte order
mark at the front of a line.  A tab does not indent: it is no blank where a key may
stand in a block collection. -/
def passBlanks (flow keyAllowed comment : Bool) (place : Place) : List Char → Cursor × Bool
  | [] => (⟨[], place⟩, keyAllowed)
  | c :: cs =>
    if isBreak c then passBlanks flow (keyAllowed || !flow) false (place.past c) cs
    else if comment || c == ' ' || (c == '\t' && (flow || !keyAllowed)) ||
        (c == '\ufeff' && place.column == 0) then
      passBlanks flow keyAllowed comment (place.past c) cs
    else if c == '#' then passBlanks flow keyAllowed true (place.past c) cs
    else (⟨c :: cs, place⟩, keyAllowed)

def skipBlanks? (s : Layout) : Option Layout :=
  let (cursor, keyAllowed) := passBlanks s.inFlow s.keyAllowed false s.cursor.place s.cursor.rest
  let s : Layout := { s with cursor, keyAllowed }
  s.dropStale?.map fun s => s.closeBlocks (some s.column)

def addToken? (s : Layout) : Option Layout :=
  match s.cursor.rest with
  | [] => none
  | c :: cs =>
    let indicates := s.inFlow || startsGap cs
    if s.cursor.atMarker then s.addMarker? (if c == '-' then .documentStart else .documentEnd)
    else match c with
      | '[' => s.openFlow? .openBracket
      | '\x7b' => s.openFlow? .openBrace
      | ']' => s.closeFlow? .closeBracket
      | '\x7d' => s.closeFlow? .closeBrace
      | ',' => s.addComma?
      | '-' => if startsGap cs then s.addDash? else s.addPlain?
      | '?' => if indicates then s.addQuestion? else s.addPlain?
      | ':' => if indicates then s.addColon? else s.addPlain?
      | '|' | '>' => s.addBlock?
      | '"' => s.addQuoted? true
      | '\'' => s.addQuoted? false
      | '\t' | '#' | '&' | '*' | '!' | '%' | '@' | '\x60' => none
      | _ => s.addPlain?

def finish? (fuel : Nat) (s : Layout) : Option (List Token) :=
  match fuel with
  | 0 => none
  | fuel + 1 =>
    match s.skipBlanks? with
    | none => none
    | some s =>
      if s.cursor.rest.isEmpty then
        (s.closeBlocks none).dropCandidate?.map (·.tokens.reverse)
      else s.addToken?.bind (finish? fuel)

end Layout

def isAllowed (c : Char) : Bool :=
  let n := c.toNat
  n == 9 || n == 10 || n == 13 || (0x20 ≤ n && n ≤ 0x7e) || n == 0x85 ||
    (0xa0 ≤ n && n ≤ 0xfffd) || 0x10000 ≤ n

def tokens? (text : String) : Option (List Token) :=
  if text.toList.all isAllowed then
    let cs := unifyBreaks text.toList
    Layout.finish? (cs.length + 1) { cursor := ⟨cs, ⟨0, 0⟩⟩ }
  else none

end Stencil.Yaml
