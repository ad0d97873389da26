import Stencil.Yaml.Cursor
/-!
# YAML scalars

The reading of scalars: plain, quoted and block.  Line breaks inside plain and
quoted scalars fold: a single line feed is a space, and of several all but the
first are kept.
-/

namespace Stencil.Yaml

def folded : List Char → List Char
  | ['\n'] => [' ']
  | '\n' :: breaks => breaks
  | breaks => breaks

def joint (gap : List Char) : List Char :=
  if gap.any isBreak then folded (gap.filter isBreak) else gap

/-! ## Plain scalars -/

def isFlowIndicator (c : Char) : Bool := [',', '[', ']', '\x7b', '\x7d'].contains c

def startsStrayColon : List Char → Bool
  | ':' :: next :: _ => isFlowIndicator next || next == '?'
  | _ => false

def plainWord (flow : Bool) : List Char → List Char
  | [] => []
  | c :: cs =>
    if startsGap (c :: cs) || (c == ':' && startsGap cs) ||
        (flow && (isFlowIndicator c || startsStrayColon (c :: cs))) then []
    else c :: plainWord flow cs

/-- Whether a tab stands before column `least`, on a line other than the first;
`column` is where the text starts, unless that is on the first line. -/
def hasEarlyTab (least : Nat) (column : Option Nat) : List Char → Bool
  | [] => false
  | c :: cs =>
    if isBreak c then hasEarlyTab least (some 0) cs
    else (c == '\t' && column.any (· < least)) || hasEarlyTab least (column.map (· + 1)) cs

theorem length_pos_of_plainWord {flow : Bool} {cs : List Char} (h : plainWord flow cs ≠ []) :
    0 < cs.length := by
  cases cs with
  | nil => simp [plainWord] at h
  | cons c cs => simp

/-- The words of a plain scalar from `c` on, each with the joint before it.  Lines
after the first start in column `least` or further right.  Next to the text stands
whether a line break comes before what follows. -/
def plainWords (flow : Bool) (least : Nat) (before : List Char) (fresh : Bool) (c : Cursor) :
    Option (List Char × Bool × Cursor) :=
  let word := plainWord flow c.rest
  let behind := c.pass word.length
  let gap := behind.gap
  let next := behind.pass gap.length
  if c.atMarker || c.rest.head? == some '#' then some ([], fresh, c)
  else if flow && startsStrayColon behind.rest then none
  else if h : word = [] then some ([], fresh, c)
  else if gap.isEmpty then some (before ++ word, false, behind)
  else if hasEarlyTab least none gap then none
  else if !flow && next.column < least then some (before ++ word, gap.any isBreak, next)
  else
    have := length_pos_of_plainWord h
    have : 0 < (plainWord flow c.rest).length := List.length_pos_iff.2 h
    (plainWords flow least (joint gap) (gap.any isBreak) next).map
      fun (more, fresh, after) => (before ++ word ++ more, fresh, after)
  termination_by c.rest.length
  decreasing_by
    simp only [Cursor.pass, List.length_drop]
    omega

def readPlain (flow : Bool) (least : Nat) (c : Cursor) : Option (List Char × Bool × Cursor) :=
  plainWords flow least [] false c

/-! ## Quoted scalars -/

def hexValue (digits : List Char) : Option Nat :=
  digits.foldlM (fun value c =>
    if c.isDigit then some (value * 16 + (c.toNat - '0'.toNat))
    else if 'a' ≤ c ∧ c ≤ 'f' then some (value * 16 + (c.toNat - 'a'.toNat + 10))
    else if 'A' ≤ c ∧ c ≤ 'F' then some (value * 16 + (c.toNat - 'A'.toNat + 10))
    else none) 0

def hexEscape (count : Nat) (cs : List Char) : Option (Char × Nat) :=
  if cs.length < count then none
  else
    match hexValue (cs.take count) with
    | none => none
    | some code => if code.isValidChar then some (Char.ofNat code, count + 1) else none

def escaped? : List Char → Option (Char × Nat)
  | [] => none
  | c :: cs =>
    match c with
    | '0' => some ('\x00', 1)
    | 'a' => some ('\x07', 1)
    | 'b' => some ('\x08', 1)
    | 't' | '\t' => some ('\t', 1)
    | 'n' => some ('\n', 1)
    | 'v' => some ('\x0b', 1)
    | 'f' => some ('\x0c', 1)
    | 'r' => some ('\r', 1)
    | 'e' => some ('\x1b', 1)
    | ' ' | '"' | '/' | '\\' => some (c, 1)
    | 'N' => some ('\u0085', 1)
    | '_' => some ('\u00a0', 1)
    | 'L' => some ('\u2028', 1)
    | 'P' => some ('\u2029', 1)
    | 'x' => hexEscape 2 cs
    | 'u' => hexEscape 4 cs
    | 'U' => hexEscape 8 cs
    | _ => none

inductive QuotedPart where
  | close
  | add (text : List Char) (more : Nat)
  deriving DecidableEq, Repr

/-- What comes first in a quoted scalar.  Behind a backslash a line break counts
for nothing, and those after it stand for themselves. -/
def quotedPart? (double : Bool) (c : Cursor) : Option QuotedPart :=
  match c.rest with
  | [] => none
  | '"' :: _ => some (if double then .close else .add ['"'] 0)
  | '\'' :: '\'' :: _ => some (.add ['\''] (if double then 0 else 1))
  | '\'' :: _ => some (if double then .add ['\''] 0 else .close)
  | '\\' :: rest =>
    if !double then some (.add ['\\'] 0)
    else if rest.head?.any isBreak then
      let gap := (c.pass 2).gap
      some (.add (gap.filter isBreak) (gap.length + 1))
    else (escaped? rest).map fun (char, count) => .add [char] count
  | char :: _ =>
    some (if c.gap.isEmpty then .add [char] 0 else .add (joint c.gap) (c.gap.length - 1))

theorem length_pos_of_quotedPart? {double : Bool} {c : Cursor} {part : QuotedPart}
    (h : quotedPart? double c = some part) : 0 < c.rest.length := by
  cases hc : c.rest with
  | nil => simp [quotedPart?, hc] at h
  | cons => simp

def quotedText (double : Bool) (c : Cursor) : Option (List Char × Cursor) :=
  if c.atMarker then none
  else
    match h : quotedPart? double c with
    | none => none
    | some .close => some ([], c.pass 1)
    | some (.add text more) =>
      have := length_pos_of_quotedPart? h
      (quotedText double (c.pass (more + 1))).map fun (rest, after) => (text ++ rest, after)
  termination_by c.rest.length
  decreasing_by
    simp only [Cursor.pass, List.length_drop]
    omega

def readQuoted (double : Bool) (c : Cursor) : Option (List Char × Cursor) :=
  quotedText double (c.pass 1)

/-! ## Block scalars -/

inductive Chomping where
  | strip
  | clip
  | keep
  deriving DecidableEq, Repr

def blockHeader (cs : List Char) : Chomping × Option Nat × Nat :=
  let chomping (c : Char) : Option Chomping :=
    if c == '+' then some .keep else if c == '-' then some .strip else none
  let digit (c : Char) : Option Nat :=
    if '1' ≤ c ∧ c ≤ '9' then some (c.toNat - '0'.toNat) else none
  match cs with
  | [] => (.clip, none, 0)
  | a :: rest =>
    match chomping a, digit a with
    | some k, _ =>
      match rest.head?.bind digit with
      | some n => (k, some n, 2)
      | none => (k, none, 1)
    | none, some n =>
      match rest.head?.bind chomping with
      | some k => (k, some n, 2)
      | none => (.clip, some n, 1)
    | none, none => (.clip, none, 0)

/-- Past empty lines and the indentation of the line after them: the line breaks,
and the greatest indentation seen.  While `indent` is open all spaces belong to the
indentation; a tab is no part of it. -/
def passIndent (indent : Option Nat) (greatest : Nat) (place : Place) :
    List Char → Option (List Char × Nat × Cursor)
  | [] => some ([], max greatest place.column, ⟨[], place⟩)
  | c :: cs =>
    let inside := indent.all (place.column < ·)
    if inside && c == ' ' then passIndent indent greatest (place.past c) cs
    else if inside && c == '\t' then none
    else if isBreak c then
      (passIndent indent (max greatest place.column) (place.past c) cs).map
        fun (breaks, greatest, after) => (c :: breaks, greatest, after)
    else some ([], max greatest place.column, ⟨c :: cs, place⟩)

theorem length_le_of_passIndent {indent : Option Nat} {greatest : Nat} {place : Place}
    {cs : List Char} {result : List Char × Nat × Cursor}
    (h : passIndent indent greatest place cs = some result) :
    result.2.2.rest.length ≤ cs.length := by
  fun_induction passIndent indent greatest place cs generalizing result with
  | case1 => simp [← Option.some.inj h]
  | case2 =>
    rename_i ih
    exact Nat.le_succ_of_le (ih h)
  | case3 => simp at h
  | case4 =>
    rename_i ih
    obtain ⟨_, hr, rfl⟩ := Option.map_eq_some_iff.1 h
    have := ih hr
    exact Nat.le_succ_of_le this
  | case5 => simp [← Option.some.inj h]

/-- The lines of a block scalar from `c` on.  `last` is the break at the end of the
line before, `breaks` are those of the empty lines in between, and `spaced` says that
the line before started with a blank. -/
def blockLines (folds : Bool) (chomping : Chomping) (indent : Nat) (last breaks : List Char)
    (spaced : Bool) (c : Cursor) : Option (List Char × Cursor) :=
  if hc : c.column = indent ∧ c.rest ≠ [] then
    let blank := c.rest.head?.any isBlank
    let glue :=
      if folds && last == ['\n'] && !spaced && !blank then
        if breaks.isEmpty then [' '] else []
      else last
    let line := c.rest.takeWhile (!isBreak ·)
    let behind := c.pass line.length
    let next := behind.pass 1
    match h : passIndent (some indent) 0 next.place next.rest with
    | none => none
    | some (more, _, start) =>
      have := length_le_of_passIndent h
      have := List.length_pos_iff.2 hc.2
      (blockLines folds chomping indent (behind.rest.take 1) more blank start).map
        fun (text, after) => (glue ++ breaks ++ line ++ text, after)
  else
    let final := if chomping == .strip then [] else last
    some (final ++ (if chomping == .keep then breaks else []), c)
  termination_by c.rest.length
  decreasing_by
    simp only [next, behind, Cursor.pass, List.length_drop] at *
    omega

def readBlock (column : Option Nat) (c : Cursor) : Option (List Char × Cursor) :=
  let folds := c.rest.head? == some '>'
  let (chomping, given, count) := blockHeader (c.rest.drop 1)
  let behind := c.pass (count + 1)
  let spaced := behind.pass (behind.rest.takeWhile isBlank).length
  let header :=
    if spaced.rest.head? == some '#' then
      spaced.pass (spaced.rest.takeWhile (!isBreak ·)).length
    else spaced
  if header.rest.head?.any (!isBreak ·) then none
  else
    let start := header.pass 1
    let indent := given.map (column.getD 0 + ·)
    match passIndent indent 0 start.place start.rest with
    | none => none
    | some (breaks, greatest, first) =>
      let indent := indent.getD (max greatest ((column.map (· + 1)).getD 1))
      blockLines folds chomping indent [] breaks false first

end Stencil.Yaml
