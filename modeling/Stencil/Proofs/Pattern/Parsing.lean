import Mathlib.Data.List.TakeWhile
import Mathlib.Tactic.Choose
import Stencil.Proofs.Pattern.Building
import Stencil.Proofs.Pattern.Source

/-!
# Parsing tokens

Any tokens can be parsed whose braces pair up, also such as no text is read as.  A walk
through the pattern meets them all again, with the texts and blanks between two others
as one text.  A parser that is asked again after it has failed goes on behind the brace
that it has rejected, so that call after call it gets through all tokens.
-/

namespace Stencil

/-! ## Braces of tokens -/

def bracesIn (ts : List Token) : List Char :=
  ts.filterMap fun t =>
    match t.kind with
    | .openBrace => some '\x7b'
    | .closeBrace => some '\x7d'
    | _ => none

def BracesPair (ts : List Token) : Prop := ClosesAll 0 (bracesIn ts)

section

variable {t : Token} {ts : List Token} {opened : List Nat}

theorem bracesIn_opening (h : t.kind = .openBrace) :
    bracesIn (t :: ts) = '\x7b' :: bracesIn ts := by
  simp [bracesIn, h]

theorem bracesIn_closing (h : t.kind = .closeBrace) :
    bracesIn (t :: ts) = '\x7d' :: bracesIn ts := by
  simp [bracesIn, h]

theorem bracesIn_other (hopening : t.kind ≠ .openBrace) (hclosing : t.kind ≠ .closeBrace) :
    bracesIn (t :: ts) = bracesIn ts := by
  cases hkind : t.kind <;> simp_all [bracesIn]

theorem braceDefect?_eq_none_iff :
    braceDefect? opened ts = none ↔ ClosesAll opened.length (bracesIn ts) := by
  induction ts generalizing opened with
  | nil => cases opened <;> simp [braceDefect?, bracesIn, closesAll_nil_iff]
  | cons t ts ih =>
      by_cases hopening : t.kind = .openBrace
      · rw [braceDefect?_opening hopening, bracesIn_opening hopening, closesAll_opening_iff, ih,
          List.length_cons]
      by_cases hclosing : t.kind = .closeBrace
      · rw [braceDefect?_closing hclosing, bracesIn_closing hclosing, closesAll_closing_iff]
        cases opened with
        | nil => simp
        | cons top outer => simp [ih]
      · rw [braceDefect?_other hopening hclosing, bracesIn_other hopening hclosing, ih]

theorem exists_brace_of_unmatched {offset : Nat} {rest : List Token}
    (h : braceDefect? opened ts = some (.unmatched offset, rest)) :
    ∃ before brace, ts = before ++ brace :: rest ∧ brace.kind = .closeBrace ∧
      brace.offset = offset ∧ ClosesAll opened.length (bracesIn before) := by
  induction ts generalizing opened with
  | nil => cases opened <;> simp [braceDefect?] at h
  | cons t ts ih =>
      by_cases hopening : t.kind = .openBrace
      · rw [braceDefect?_opening hopening] at h
        obtain ⟨before, brace, rfl, hkind, hoffset, hbefore⟩ := ih h
        refine ⟨t :: before, brace, rfl, hkind, hoffset, ?_⟩
        rwa [bracesIn_opening hopening, closesAll_opening_iff]
      by_cases hclosing : t.kind = .closeBrace
      · rw [braceDefect?_closing hclosing] at h
        cases opened with
        | nil =>
            obtain ⟨⟨rfl⟩, rfl⟩ := Prod.mk.inj (Option.some.inj h)
            exact ⟨[], t, rfl, hclosing, rfl, closesAll_nil_iff.mpr rfl⟩
        | cons top outer =>
            obtain ⟨before, brace, rfl, hkind, hoffset, hbefore⟩ := ih h
            refine ⟨t :: before, brace, rfl, hkind, hoffset, ?_⟩
            rw [bracesIn_closing hclosing, closesAll_closing_iff]
            exact ⟨Nat.succ_pos _, hbefore⟩
      · rw [braceDefect?_other hopening hclosing] at h
        obtain ⟨before, brace, rfl, hkind, hoffset, hbefore⟩ := ih h
        refine ⟨t :: before, brace, rfl, hkind, hoffset, ?_⟩
        rwa [bracesIn_other hopening hclosing]

theorem exists_brace_of_unclosed {offset : Nat} {rest : List Token}
    (h : braceDefect? opened ts = some (.unclosed offset, rest)) :
    rest = [] ∧ ClosesOpen opened.length (bracesIn ts) ∧
      ((∃ before brace after, ts = before ++ brace :: after ∧ brace.kind = .openBrace ∧
          brace.offset = offset ∧ BracesPair after) ∨
        ∃ inner outer, opened = inner ++ offset :: outer ∧
          ClosesAll inner.length (bracesIn ts)) := by
  induction ts generalizing opened with
  | nil =>
      cases opened with
      | nil => simp [braceDefect?] at h
      | cons top outer =>
          obtain ⟨⟨rfl⟩, rfl⟩ := Prod.mk.inj (Option.some.inj h)
          have hnil : ClosesAll 0 (bracesIn []) := closesAll_nil_iff.mpr rfl
          exact ⟨rfl, hnil.1.mono (Nat.zero_le _), .inr ⟨[], outer, rfl, hnil⟩⟩
  | cons t ts ih =>
      by_cases hopening : t.kind = .openBrace
      · rw [braceDefect?_opening hopening] at h
        obtain ⟨rfl, hopen, hbrace⟩ := ih h
        rw [bracesIn_opening hopening, closesOpen_opening_iff]
        refine ⟨rfl, hopen, ?_⟩
        rcases hbrace with ⟨before, brace, after, rfl, hkind, hoffset, hafter⟩ |
          ⟨inner, outer, heq, hinner⟩
        · exact .inl ⟨t :: before, brace, after, rfl, hkind, hoffset, hafter⟩
        · cases inner with
          | nil => exact .inl ⟨[], t, ts, rfl, hopening, (List.cons.inj heq).1, hinner⟩
          | cons top inner =>
              exact .inr ⟨inner, outer, (List.cons.inj heq).2, closesAll_opening_iff.mpr hinner⟩
      by_cases hclosing : t.kind = .closeBrace
      · rw [braceDefect?_closing hclosing] at h
        cases opened with
        | nil => cases h
        | cons top opened =>
            obtain ⟨rfl, hopen, hbrace⟩ := ih h
            rw [bracesIn_closing hclosing, closesOpen_closing_iff]
            refine ⟨rfl, ⟨Nat.succ_pos _, hopen⟩, ?_⟩
            rcases hbrace with ⟨before, brace, after, rfl, hkind, hoffset, hafter⟩ |
              ⟨inner, outer, rfl, hinner⟩
            · exact .inl ⟨t :: before, brace, after, rfl, hkind, hoffset, hafter⟩
            · exact .inr ⟨top :: inner, outer, rfl,
                closesAll_closing_iff.mpr ⟨Nat.succ_pos _, hinner⟩⟩
      · rw [braceDefect?_other hopening hclosing] at h
        obtain ⟨rfl, hopen, hbrace⟩ := ih h
        rw [bracesIn_other hopening hclosing]
        refine ⟨rfl, hopen, hbrace.imp_left ?_⟩
        rintro ⟨before, brace, after, rfl, hkind, hoffset, hafter⟩
        exact ⟨t :: before, brace, after, rfl, hkind, hoffset, hafter⟩

end

/-! ## Stops -/

/-- A stop of a walk without what only the tree tells: a block has no body, and where it
is left no offset. -/
inductive Stop where
  | hole (hole : Hole) (offset : Nat)
  | text (content : String) (offset : Nat)
  | enter (offset : Nat)
  | exit
  deriving DecidableEq, Repr

def Visit.stop : Visit → Stop
  | hole h offset => .hole h offset
  | text content offset => .text content offset
  | enter offset _ => .enter offset
  | exit _ _ => .exit

def Token.isPlain (t : Token) : Bool := t.kind == .text || t.kind == .blank

/-- The tokens up to a `finish`, each as a stop; a longest run of texts and blanks is one
text, at the offset of the first of them. -/
def stops : List Token → List Stop
  | [] => []
  | t :: ts =>
    match t.kind with
    | .text | .blank =>
      .text (String.join (t.value :: (ts.takeWhile Token.isPlain).map Token.value)) t.offset ::
        stops (ts.dropWhile Token.isPlain)
    | .hole h => .hole h t.offset :: stops ts
    | .openBrace => .enter t.offset :: stops ts
    | .closeBrace => .exit :: stops ts
    | .finish => []
  termination_by ts => ts.length
  decreasing_by
    all_goals
      have := List.length_dropWhile_le Token.isPlain ts
      simp only [List.length_cons]
      omega

def consStop (value : String) (offset : Nat) : List Stop → List Stop
  | .text content _ :: rest => .text (value ++ content) offset :: rest
  | rest => .text value offset :: rest

theorem consStop_append (value : String) (offset : Nat) (front : List Stop) {back : List Stop}
    (hback : ∀ content offset rest, back ≠ .text content offset :: rest) :
    consStop value offset (front ++ back) = consStop value offset front ++ back := by
  cases front with
  | nil =>
      rw [List.nil_append]
      unfold consStop
      split
      · exact absurd rfl (hback _ _ _)
      · rfl
  | cons stop front => cases stop <;> rfl

theorem stops_plain {t : Token} (h : t.isPlain = true) (ts : List Token) :
    stops (t :: ts) = consStop t.value t.offset (stops ts) := by
  have hrun : ∀ {t : Token}, t.isPlain = true → ∀ ts, stops (t :: ts) =
      .text (String.join (t.value :: (ts.takeWhile Token.isPlain).map Token.value)) t.offset ::
        stops (ts.dropWhile Token.isPlain) := by
    intro t h ts
    rw [stops]
    cases hkind : t.kind <;> simp_all [Token.isPlain]
  rw [hrun h]
  cases ts with
  | nil => simp [stops, consStop]
  | cons u ts =>
      cases hu : u.isPlain with
      | true =>
          rw [hrun hu, List.takeWhile_cons_of_pos hu, List.dropWhile_cons_of_pos hu]
          simp [consStop, String.join_cons]
      | false =>
          rw [List.takeWhile_cons_of_neg (by simp [hu]), List.dropWhile_cons_of_neg (by simp [hu])]
          rw [stops]
          cases hkind : u.kind <;> simp_all [Token.isPlain, consStop]

/-! ## The walk -/

namespace Pattern

def TextsApart : Pattern → Prop
  | nil => True
  | hole _ _ rest => rest.TextsApart
  | text _ _ rest => rest.BeginsOther ∧ rest.TextsApart
  | block _ body rest => body.TextsApart ∧ rest.TextsApart

theorem TextsApart.consText {p : Pattern} (h : p.TextsApart) (value : String) (offset : Nat) :
    (consText value offset p).TextsApart := by
  cases p with
  | nil | hole _ _ _ | block _ _ _ => exact ⟨by simp [BeginsOther], h⟩
  | text content offset rest => exact h

theorem textsApart_assemble (ts : List Token) :
    (assemble ts).1.TextsApart ∧ ∀ p ∈ (assemble ts).2, p.TextsApart := by
  induction ts with
  | nil => exact ⟨trivial, by simp [assemble]⟩
  | cons t ts ih =>
      obtain ⟨hcurrent, houter⟩ := ih
      rw [assemble]
      cases t.kind with
      | text | blank => exact ⟨hcurrent.consText _ _, houter⟩
      | hole h => exact ⟨hcurrent, houter⟩
      | openBrace =>
          refine ⟨⟨hcurrent, ?_⟩, fun p hp => houter p (List.mem_of_mem_tail hp)⟩
          cases hrest : (assemble ts).2 with
          | nil => trivial
          | cons rest outer => exact houter rest (by simp [hrest])
      | closeBrace => exact ⟨trivial, by simpa using ⟨hcurrent, houter⟩⟩
      | finish => exact ⟨hcurrent, houter⟩

theorem stops_consText (value : String) (offset : Nat) (p : Pattern) :
    (consText value offset p).visits.map Visit.stop =
      consStop value offset (p.visits.map Visit.stop) := by
  cases p <;> rfl

theorem length_assemble {ts : List Token} {opened : List Nat}
    (h : braceDefect? opened ts = none) : (assemble ts).2.length = opened.length := by
  induction ts generalizing opened with
  | nil => cases opened <;> simp_all [braceDefect?, assemble]
  | cons t ts ih =>
      rw [assemble]
      cases hkind : t.kind with
      | text | blank | hole _ | finish =>
          rw [braceDefect?_other (by simp [hkind]) (by simp [hkind])] at h
          exact ih h
      | openBrace =>
          rw [braceDefect?_opening hkind] at h
          simp [ih h]
      | closeBrace =>
          rw [braceDefect?_closing hkind] at h
          cases opened with
          | nil => simp at h
          | cons top outer => simpa using ih h

/-- A walk through what has been assembled, and then through what follows each closing
brace that still waits for its partner, meets the tokens. -/
theorem stops_assemble {ts : List Token} (hfinish : ∀ t ∈ ts, t.kind ≠ .finish)
    {opened : List Nat} (h : braceDefect? opened ts = none) :
    (assemble ts).1.visits.map Visit.stop ++
      (assemble ts).2.flatMap (fun p => .exit :: p.visits.map Visit.stop) = stops ts := by
  induction ts generalizing opened with
  | nil => simp [assemble, visits, stops]
  | cons t ts ih =>
      rw [List.forall_mem_cons] at hfinish
      have hother : ∀ content offset rest,
          (assemble ts).2.flatMap (fun p => .exit :: p.visits.map Visit.stop) ≠
            .text content offset :: rest := by
        intro content offset rest
        cases (assemble ts).2 <;> simp
      rw [assemble]
      cases hkind : t.kind with
      | text | blank =>
          rw [braceDefect?_other (by simp [hkind]) (by simp [hkind])] at h
          rw [stops_plain (by simp [Token.isPlain, hkind]), ← ih hfinish.2 h,
            consStop_append _ _ _ hother, ← stops_consText]
      | hole hole =>
          rw [braceDefect?_other (by simp [hkind]) (by simp [hkind])] at h
          rw [stops, hkind, ← ih hfinish.2 h]
          rfl
      | openBrace =>
          rw [braceDefect?_opening hkind] at h
          obtain ⟨rest, outer, houter⟩ := List.exists_cons_of_length_pos
            (show 0 < (assemble ts).2.length by simp [length_assemble h])
          rw [stops, hkind, ← ih hfinish.2 h]
          simp [houter, visits, Visit.stop]
      | closeBrace =>
          rw [braceDefect?_closing hkind] at h
          cases opened with
          | nil => simp at h
          | cons top outer =>
              rw [stops, hkind, ← ih hfinish.2 h]
              simp [visits]
      | finish => exact absurd hkind hfinish.1

theorem stops_ofTokens {ts : List Token} (hfinish : ∀ t ∈ ts, t.kind ≠ .finish)
    (h : BracesPair ts) : (ofTokens ts).visits.map Visit.stop = stops ts := by
  have hnone : braceDefect? [] ts = none := braceDefect?_eq_none_iff.mpr h
  have hnil : (assemble ts).2 = [] := List.eq_nil_of_length_eq_zero (length_assemble hnone)
  rw [← stops_assemble hfinish hnone, hnil, List.flatMap_nil, List.append_nil, ofTokens]

end Pattern

/-! ## Calls -/

/-- What a call of the parser makes of the tokens `part` that it reads, those in `rest`
being left. -/
inductive Consumes (part : List Token) : Except BraceError Pattern → List Token → Prop where
  | pattern {p : Pattern} (hbraces : BracesPair part)
      (hwalk : (PatternTree.mk p 0).walk.map Visit.stop = stops part) (hapart : p.TextsApart) :
      Consumes part (.ok p) []
  /-- The last token read is the brace that is rejected. -/
  | unmatched {before rest : List Token} {brace : Token} (hpart : part = before ++ [brace])
      (hbefore : BracesPair before) (hbrace : brace.kind = .closeBrace) :
      Consumes part (.error (.unmatched brace.offset)) rest
  /-- No brace is rejected, one is missing; that takes all tokens to tell. -/
  | unclosed {before after : List Token} {brace : Token} (hpart : part = before ++ brace :: after)
      (hopen : ClosesOpen 0 (bracesIn part)) (hbrace : brace.kind = .openBrace)
      (hafter : BracesPair after) : Consumes part (.error (.unclosed brace.offset)) []

theorem Consumes.exists_closing {part rest : List Token} {result : Except BraceError Pattern}
    (h : Consumes part result rest) (hrest : rest ≠ []) :
    ∃ before brace, part = before ++ [brace] ∧ brace.kind = .closeBrace := by
  cases h with
  | pattern | unclosed => contradiction
  | @unmatched before _ brace hpart _ hbrace => exact ⟨before, brace, hpart, hbrace⟩

namespace Parser

def after (p : Parser) : Nat → Parser
  | 0 => p
  | n + 1 => (p.after n).parse.2

variable {p : Parser} (hfinish : ∀ t ∈ p.rest, t.kind ≠ .finish)

include hfinish

theorem parse_of_unfinished :
    p.parse = match braceDefect? [] p.rest with
      | some (e, unread) => (.error e, ⟨unread⟩)
      | none => (.ok (Pattern.ofTokens p.rest), ⟨[]⟩) := by
  have hall : ∀ t ∈ p.rest, (t.kind != .finish) = true := fun t ht => bne_iff_ne.mpr (hfinish t ht)
  rw [parse, List.takeWhile_eq_self_iff.mpr hall, List.dropWhile_eq_nil_iff.mpr hall]
  cases braceDefect? [] p.rest <;> simp

theorem exists_parse_iff : (∃ q, p.parse.1 = .ok q) ↔ BracesPair p.rest := by
  rw [parse_of_unfinished hfinish, BracesPair, ← List.length_nil, ← braceDefect?_eq_none_iff]
  cases braceDefect? [] p.rest <;> simp

theorem parse_consumes :
    ∃ part, p.rest = part ++ p.parse.2.rest ∧ Consumes part p.parse.1 p.parse.2.rest := by
  rw [parse_of_unfinished hfinish]
  cases hdefect : braceDefect? [] p.rest with
  | none =>
      have hbraces : BracesPair p.rest := braceDefect?_eq_none_iff.mp hdefect
      refine ⟨p.rest, by simp, .pattern hbraces ?_ (Pattern.textsApart_assemble _).1⟩
      rw [PatternTree.walk_eq, Pattern.stops_ofTokens hfinish hbraces]
  | some defect =>
      obtain ⟨e, unread⟩ := defect
      cases e with
      | unmatched offset =>
          obtain ⟨before, brace, hrest, hbrace, rfl, hbefore⟩ := exists_brace_of_unmatched hdefect
          exact ⟨before ++ [brace], by simp [hrest], .unmatched rfl hbefore hbrace⟩
      | unclosed offset =>
          obtain ⟨rfl, hopen, ⟨before, brace, after, hrest, hbrace, rfl, hafter⟩ |
            ⟨inner, outer, hnil, _⟩⟩ := exists_brace_of_unclosed hdefect
          · exact ⟨p.rest, by simp, .unclosed hrest hopen hbrace hafter⟩
          · simp at hnil

theorem after_unfinished (n : Nat) : ∀ t ∈ (p.after n).rest, t.kind ≠ .finish := by
  induction n with
  | zero => exact hfinish
  | succ n ih =>
      obtain ⟨part, hpart, _⟩ := parse_consumes ih
      intro t ht
      refine ih t ?_
      rw [hpart]
      exact List.mem_append_right part ht

theorem exists_parts :
    ∃ parts : Nat → List Token, ∀ n,
      p.rest = (List.range n).flatMap parts ++ (p.after n).rest ∧
        Consumes (parts n) (p.after n).parse.1 (p.after (n + 1)).rest := by
  choose parts hparts using fun n => parse_consumes (after_unfinished hfinish n)
  refine ⟨parts, fun n => ⟨?_, (hparts n).2⟩⟩
  induction n with
  | zero => simp [after]
  | succ n ih =>
      rw [List.range_succ, List.flatMap_append, List.flatMap_singleton, List.append_assoc, after,
        ← (hparts n).1]
      exact ih

theorem countP_after (n : Nat) (hrest : (p.after n).rest ≠ []) :
    n + (p.after n).rest.countP (·.kind = .closeBrace) ≤ p.rest.countP (·.kind = .closeBrace) := by
  induction n with
  | zero => simp [after]
  | succ n ih =>
      obtain ⟨part, hpart, hconsumes⟩ := parse_consumes (after_unfinished hfinish n)
      obtain ⟨before, brace, hread, hbrace⟩ := hconsumes.exists_closing hrest
      have hcount := ih (by rw [hpart]; exact List.append_ne_nil_of_right_ne_nil _ hrest)
      have hone : part.countP (·.kind = .closeBrace) =
          before.countP (·.kind = .closeBrace) + 1 := by
        simp [hread, hbrace]
      rw [hpart, List.countP_append] at hcount
      rw [after]
      omega

end Parser

namespace TokenCursor

def after (c : TokenCursor) : Nat → TokenCursor
  | 0 => c
  | n + 1 => (c.after n).parse.2

theorem after_eq {ts : List Token} {parts : Nat → List Token}
    (hparts : ∀ n, ts = (List.range n).flatMap parts ++ ((Parser.mk ts).after n).rest) (n : Nat) :
    (TokenCursor.mk ts 0).after n = ⟨ts, ((List.range n).flatMap parts).length⟩ ∧
      ((TokenCursor.mk ts 0).after n).parse.1 =
        ((Parser.mk ts).after n).parse.1.map fun children => ⟨children, 0⟩ := by
  have hparse : ∀ n, (TokenCursor.mk ts ((List.range n).flatMap parts).length).parse =
      (((Parser.mk ts).after n).parse.1.map fun children => ⟨children, 0⟩,
        ⟨ts, ((List.range (n + 1)).flatMap parts).length⟩) := by
    intro n
    have hlength := congrArg List.length (hparts n)
    have hnext := congrArg List.length (hparts (n + 1))
    rw [List.length_append] at hlength hnext
    rw [parse_eq (p := (Parser.mk ts).after n) (by simp only; omega) ?_]
    · rw [Parser.after] at hnext
      simp only [Prod.mk.injEq, TokenCursor.mk.injEq, true_and]
      omega
    · refine Eq.trans ?_ (@List.drop_left _ ((List.range n).flatMap parts) _)
      rw [← hparts n]
  have hafter : (TokenCursor.mk ts 0).after n = ⟨ts, ((List.range n).flatMap parts).length⟩ := by
    induction n with
    | zero => rfl
    | succ n ih => rw [after, ih, hparse]
  rw [hafter, hparse]
  exact ⟨rfl, rfl⟩

end TokenCursor

namespace Parser

/-- Tokens are accepted exactly if their braces pair up, and then a walk through the
pattern meets them all, each run of texts and blanks as one text, and no two texts side by
side.  Calls in turn read one part of the tokens after the other, a part that is rejected
up to the brace that no open one precedes, and they come to the end of the tokens.  The
parser that builds with a stack gives the same and stands at the same places. -/
theorem calls_keep_tokens (ts : List Token) (hfinish : ∀ t ∈ ts, t.kind ≠ .finish) :
    ((∃ p, (Parser.mk ts).parse.1 = .ok p) ↔ BracesPair ts) ∧
      (∀ p, (Parser.mk ts).parse.1 = .ok p →
        (PatternTree.mk p 0).walk.map Visit.stop = stops ts ∧ p.TextsApart) ∧
      ∃ parts : Nat → List Token, ∀ n,
        ts = (List.range n).flatMap parts ++ ((Parser.mk ts).after n).rest ∧
        Consumes (parts n) ((Parser.mk ts).after n).parse.1 ((Parser.mk ts).after (n + 1)).rest ∧
        (ts.countP (·.kind = .closeBrace) < n → ((Parser.mk ts).after n).rest = []) ∧
        (TokenCursor.mk ts 0).after n = ⟨ts, ((List.range n).flatMap parts).length⟩ ∧
        ((TokenCursor.mk ts 0).after n).parse.1 =
          ((Parser.mk ts).after n).parse.1.map fun children => ⟨children, 0⟩ := by
  refine ⟨exists_parse_iff hfinish, fun p hp => ?_, ?_⟩
  · obtain ⟨part, hpart, hconsumes⟩ := parse_consumes (p := ⟨ts⟩) hfinish
    rw [hp] at hconsumes
    generalize hrest : (Parser.mk ts).parse.2.rest = rest at hconsumes hpart
    cases hconsumes with
    | pattern _ hwalk hapart =>
        rw [List.append_nil] at hpart
        obtain rfl : ts = part := hpart
        exact ⟨hwalk, hapart⟩
  · obtain ⟨parts, hparts⟩ := exists_parts (p := ⟨ts⟩) hfinish
    refine ⟨parts, fun n => ⟨(hparts n).1, (hparts n).2, fun hcount => ?_,
      TokenCursor.after_eq (fun n => (hparts n).1) n⟩⟩
    refine Decidable.byContradiction fun hrest => ?_
    have hle := countP_after (p := ⟨ts⟩) hfinish n hrest
    dsimp only at hle
    omega

/-- The first call rejects a brace, the second one gets to the end. -/
theorem calls_keep_tokens_stray_brace :
    ∃ front back : List Token,
      front = [⟨.text, "a", 7⟩, ⟨.blank, " ", 3⟩, ⟨.closeBrace, "\x7d", 5⟩] ∧
      back = [⟨.text, "b", 1⟩, ⟨.openBrace, "\x7b", 0⟩, ⟨.text, "c", 4⟩, ⟨.text, "", 4⟩,
        ⟨.blank, "  ", 2⟩, ⟨.closeBrace, "\x7d", 9⟩] ∧
      (∀ t ∈ front ++ back, t.kind ≠ .finish) ∧ ¬ BracesPair (front ++ back) ∧ BracesPair back ∧
      (Parser.mk (front ++ back)).parse = (.error (.unmatched 5), ⟨back⟩) ∧
      (∃ p, (Parser.mk back).parse.1 = .ok p ∧ (PatternTree.mk p 0).walk.map Visit.stop =
        [.text "b" 1, .enter 0, .text "c  " 4, .exit]) ∧
      ((Parser.mk (front ++ back)).after 3).rest = [] := by
  obtain ⟨front, hfront⟩ : ∃ front : List Token,
      front = [⟨.text, "a", 7⟩, ⟨.blank, " ", 3⟩, ⟨.closeBrace, "\x7d", 5⟩] := ⟨_, rfl⟩
  obtain ⟨back, hback⟩ : ∃ back : List Token,
      back = [⟨.text, "b", 1⟩, ⟨.openBrace, "\x7b", 0⟩, ⟨.text, "c", 4⟩, ⟨.text, "", 4⟩,
        ⟨.blank, "  ", 2⟩, ⟨.closeBrace, "\x7d", 9⟩] := ⟨_, rfl⟩
  have hfinish : ∀ t ∈ front ++ back, t.kind ≠ .finish := by
    rw [hfront, hback]
    decide
  have hparse : (Parser.mk (front ++ back)).parse = (.error (.unmatched 5), ⟨back⟩) := by
    rw [hfront, hback]
    rfl
  obtain ⟨hiff, _, parts, hparts⟩ := calls_keep_tokens (front ++ back) hfinish
  obtain ⟨hiffBack, hwalk, _⟩ := calls_keep_tokens back
    fun t ht => hfinish t (List.mem_append_right front ht)
  have hok : ∃ p, (Parser.mk back).parse.1 = .ok p := by
    rw [hback]
    exact ⟨_, rfl⟩
  have hstops : stops back = [.text "b" 1, .enter 0, .text "c  " 4, .exit] := by
    rw [hback]
    decide +kernel
  refine ⟨front, back, hfront, hback, hfinish, fun h => ?_, hiffBack.mp hok, hparse, ?_,
    (hparts 3).2.2.1 (by rw [hfront, hback]; decide)⟩
  · obtain ⟨p, hp⟩ := hiff.mpr h
    simp [hparse] at hp
  · obtain ⟨p, hp⟩ := hok
    exact ⟨p, hp, (hwalk p hp).1.trans hstops⟩

end Parser

end Stencil
