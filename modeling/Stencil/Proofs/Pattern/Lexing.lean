import Stencil.Pattern.Compile
import Stencil.Proofs.Text.Cuts

/-!
# Lexing patterns

The tokens of a pattern are stretches of its text, in order and without gaps.
Every `:[` of the text is the start of a hole token; the lexer fails exactly at
the first one that cannot be.
-/

namespace Stencil

/-! ## Holes -/

def OpensHole (after : List Char) : Prop :=
  ∃ name rest, isName name = true ∧
    (after = name ++ ']' :: rest ∨ after = '[' :: (name ++ ']' :: ']' :: rest))

def NameMissing (after : List Char) : Prop := [']'] <+: after ∨ ['[', ']', ']'] <+: after

theorem dropFront?_eq_some_iff {front cs rest : List Char} :
    dropFront? front cs = some rest ↔ cs = front ++ rest := by
  induction front generalizing cs with
  | nil => simp [dropFront?]
  | cons f front ih =>
      cases cs with
      | nil => simp [dropFront?]
      | cons c cs =>
          rw [dropFront?]
          split
          · rename_i heq
            rw [beq_iff_eq] at heq
            rw [ih, heq, List.cons_append, List.cons.injEq, and_iff_right rfl]
          · rename_i hne
            rw [beq_iff_eq] at hne
            simp [Ne.symm hne]

theorem all_isNameChar_of_isName {name : List Char} (h : isName name = true) :
    name.all isNameChar = true := by
  cases name with
  | nil => rfl
  | cons c name =>
      simp only [isName, isNameStart, Bool.and_eq_true, Bool.or_eq_true] at h
      simp only [List.all_cons, isNameChar, Char.isAlphanum, Bool.and_eq_true, Bool.or_eq_true]
      exact ⟨h.1.imp .inl id, h.2⟩

theorem bracket_cons_ne {name : List Char} (h : isName name = true) {cs rest : List Char} :
    '[' :: cs ≠ name ++ rest := by
  intro heq
  cases name with
  | nil => simp [isName] at h
  | cons c name =>
      rw [List.cons_append, List.cons.injEq] at heq
      rw [← heq.1] at h
      simp [isName, isNameStart] at h

section

variable {q : Quantifier} {cs name rest : List Char}

private theorem closing_split :
    (q.closing.toList ++ rest).takeWhile isNameChar = [] ∧
      (q.closing.toList ++ rest).dropWhile isNameChar = q.closing.toList ++ rest := by
  cases q <;> exact ⟨rfl, rfl⟩

private theorem name_split (q : Quantifier) (rest : List Char)
    (hname : name.all isNameChar = true) :
    (name ++ (q.closing.toList ++ rest)).takeWhile isNameChar = name ∧
      (name ++ (q.closing.toList ++ rest)).dropWhile isNameChar = q.closing.toList ++ rest := by
  rw [List.all_eq_true] at hname
  rw [List.takeWhile_append_of_pos hname, List.dropWhile_append_of_pos hname, closing_split.1,
    closing_split.2, List.append_nil]
  exact ⟨rfl, rfl⟩

theorem lexHole_of_isName (q : Quantifier) (rest : List Char) (h : isName name = true) :
    lexHole q (name ++ (q.closing.toList ++ rest)) =
      .token (.hole ⟨String.ofList name, .any, q⟩)
        (q.opening.toList ++ name ++ q.closing.toList) rest := by
  obtain ⟨htake, hdrop⟩ := name_split q rest (all_isNameChar_of_isName h)
  have hnil : name.isEmpty = false := by
    cases name with
    | nil => simp [isName] at h
    | cons c name => rfl
  simp only [lexHole, htake, hdrop, dropFront?_eq_some_iff.mpr rfl, hnil, h, if_true,
    Bool.false_eq_true, if_false]

theorem lexHole_of_not
    (h : ¬ ∃ name rest, isName name = true ∧ cs = name ++ (q.closing.toList ++ rest)) :
    ∃ error read rest, lexHole q cs = .malformed error read rest ∧
      (q.closing.toList <+: cs → error = .emptyName) ∧
      (¬ q.closing.toList <+: cs → error = .unterminated) := by
  have hsplit : cs = cs.takeWhile isNameChar ++ cs.dropWhile isNameChar :=
    List.takeWhile_append_dropWhile.symm
  rw [lexHole]
  split
  · rename_i hnone
    refine ⟨_, _, _, rfl, ?_, fun _ => rfl⟩
    rintro ⟨rest, rfl⟩
    rw [closing_split.2, dropFront?_eq_some_iff.mpr rfl] at hnone
    simp at hnone
  · rename_i rest hrest
    rw [dropFront?_eq_some_iff] at hrest
    rw [hrest] at hsplit
    split
    · rename_i hempty
      rw [List.isEmpty_iff.mp hempty, List.nil_append] at hsplit
      exact ⟨_, _, _, rfl, fun _ => rfl, fun hno => absurd ⟨rest, hsplit.symm⟩ hno⟩
    · rename_i hnonempty
      split
      · rename_i hname
        exact absurd ⟨_, rest, hname, hsplit⟩ h
      · refine ⟨_, _, _, rfl, ?_, fun _ => rfl⟩
        rintro ⟨rest', rfl⟩
        simp [closing_split.1] at hnonempty

end

/-! ## Text -/

def stopsText : List Char → Bool
  | [] => true
  | c :: cs =>
    c == '\x7b' || c == '\x7d' || isBlank c || (c == ':' && cs.head? == some '[')

theorem textRun_cons (c : Char) (cs : List Char) :
    textRun (c :: cs) = if stopsText (c :: cs) then [] else c :: textRun cs := by
  cases cs with
  | nil => simp [textRun, stopsText]
  | cons d cs => simp [textRun, stopsText]

theorem textRun_of_stopsText {cs : List Char} (h : stopsText cs = true) : textRun cs = [] := by
  cases cs with
  | nil => rfl
  | cons c cs => rw [textRun_cons, if_pos h]

theorem stopsText_of_textRun {cs front back rest : List Char} (hrun : textRun cs = front ++ back)
    (hback : back ≠ []) (hcs : cs = front ++ (back ++ rest)) :
    stopsText (back ++ rest) = false := by
  induction front generalizing cs with
  | nil =>
      rw [List.nil_append] at hrun hcs
      subst hcs
      cases hstops : stopsText (back ++ rest) with
      | false => rfl
      | true =>
          rw [textRun_of_stopsText hstops] at hrun
          exact absurd hrun.symm hback
  | cons c front ih =>
      rw [hcs, List.cons_append, textRun_cons] at hrun
      split at hrun
      · simp at hrun
      · rw [List.cons_append, List.cons.injEq] at hrun
        exact ih hrun.2 rfl

theorem textRun_isPrefix (cs : List Char) : textRun cs <+: cs := by
  induction cs with
  | nil => exact List.prefix_refl _
  | cons c cs ih =>
      rw [textRun_cons]
      split
      · exact List.nil_prefix
      · simpa using ih

/-! ## Single tokens -/

/-- How a token of a kind is written; a text run depends on what comes behind it. -/
inductive Spelled : TokenKind → List Char → List Char → Prop where
  | openBrace {rest : List Char} : Spelled .openBrace ['\x7b'] rest
  | closeBrace {rest : List Char} : Spelled .closeBrace ['\x7d'] rest
  | blank {value rest : List Char} (h : value.all isBlank = true) : Spelled .blank value rest
  | hole {h : Hole} {rest : List Char} (hname : isName h.name.toList = true)
      (hkind : h.kind = .any) : Spelled (.hole h) h.source.toList rest
  | text {value rest : List Char}
      (h : ∀ front back, value = front ++ back → back ≠ [] → stopsText (back ++ rest) = false) :
      Spelled .text value rest

theorem Spelled.of_plain {c : Char} {cs : List Char} (h : stopsText (c :: cs) = false) :
    Spelled .text (c :: textRun cs) (cs.drop (textRun cs).length) := by
  have hwhole : cs = textRun cs ++ cs.drop (textRun cs).length :=
    (List.prefix_iff_eq_append.mp (textRun_isPrefix cs)).symm
  refine .text fun front back hvalue hback => ?_
  cases front with
  | nil =>
      rw [List.nil_append] at hvalue
      rwa [← hvalue, List.cons_append, ← hwhole]
  | cons d front =>
      rw [List.cons_append, List.cons.injEq] at hvalue
      refine stopsText_of_textRun hvalue.2 hback ?_
      rw [← List.append_assoc, ← hvalue.2, ← hwhole]

theorem lexeme_plain {c : Char} {cs : List Char} (h : stopsText (c :: cs) = false) :
    lexeme c cs = .token .text (c :: textRun cs) (cs.drop (textRun cs).length) := by
  simp only [stopsText, Bool.or_eq_false_iff] at h
  obtain ⟨⟨⟨hopen, hclose⟩, hblank⟩, hhole⟩ := h
  simp only [lexeme, hopen, hclose, hblank, Bool.false_eq_true, if_false]
  split
  · simp at hhole
  · simp at hhole
  · rfl

theorem lexeme_blank {c : Char} {cs : List Char} (h : isBlank c = true) :
    lexeme c cs = .token .blank (c :: cs.takeWhile isBlank) (cs.dropWhile isBlank) := by
  have hne : ∀ d, isBlank d = false → (c == d) = false := by
    intro d hd
    rw [beq_eq_false_iff_ne]
    rintro rfl
    simp [h] at hd
  simp only [lexeme, hne '\x7b' rfl, hne '\x7d' rfl, h, Bool.false_eq_true, if_false, if_true]

theorem lexeme_one {after : List Char} (h : ∀ cs, after ≠ '[' :: cs) :
    lexeme ':' ('[' :: after) = lexHole .one after := by
  cases after with
  | nil => rfl
  | cons c cs =>
      have hc : c ≠ '[' := fun heq => h cs (by rw [heq])
      simp only [lexeme, isBlank]
      split <;> simp_all

theorem Hole.exists_lexeme {h : Hole} (hname : isName h.name.toList = true) (hkind : h.kind = .any)
    (rest : List Char) :
    ∃ c cs, h.source.toList ++ rest = c :: cs ∧
      lexeme c cs = .token (.hole h) h.source.toList rest := by
  obtain ⟨name, kind, q⟩ := h
  obtain rfl : kind = .any := hkind
  have hread := lexHole_of_isName q rest hname
  rw [String.ofList_toList] at hread
  cases q with
  | one =>
      refine ⟨':', '[' :: (name.toList ++ ([']'] ++ rest)), by simp [source, Quantifier.opening,
        Quantifier.closing], ?_⟩
      rw [lexeme_one fun cs heq => bracket_cons_ne hname heq.symm]
      refine hread.trans ?_
      simp [source]
  | block =>
      refine ⟨':', '[' :: '[' :: (name.toList ++ ([']', ']'] ++ rest)), by simp [source,
        Quantifier.opening, Quantifier.closing], ?_⟩
      refine hread.trans ?_
      simp [source]

theorem opensHole_iff {after : List Char} :
    OpensHole after ↔ ∃ (hole : Hole) (rest : List Char), isName hole.name.toList = true ∧
      hole.kind = .any ∧ hole.source.toList ++ rest = ':' :: '[' :: after := by
  constructor
  · rintro ⟨name, rest, hname, rfl | rfl⟩
    · refine ⟨⟨String.ofList name, .any, .one⟩, rest, by rwa [String.toList_ofList], rfl, ?_⟩
      simp [Hole.source, Quantifier.opening, Quantifier.closing]
    · refine ⟨⟨String.ofList name, .any, .block⟩, rest, by rwa [String.toList_ofList], rfl, ?_⟩
      simp [Hole.source, Quantifier.opening, Quantifier.closing]
  · rintro ⟨⟨name, kind, q⟩, rest, hname, _, hwhole⟩
    refine ⟨name.toList, rest, hname, ?_⟩
    cases q with
    | one => exact .inl (by simpa [Hole.source, Quantifier.opening, Quantifier.closing] using
        hwhole.symm)
    | block => exact .inr (by simpa [Hole.source, Quantifier.opening, Quantifier.closing] using
        hwhole.symm)

/-- What the lexer says about a `:[` at offset `n` that starts no hole. -/
inductive HoleFault (after : List Char) (n : Nat) : HoleError → Prop where
  | emptyName (h : NameMissing after) : HoleFault after n (.emptyName n)
  | unterminated (h : ¬ NameMissing after) : HoleFault after n (.unterminated n)

theorem HoleFault.offset_eq {after : List Char} {n : Nat} {e : HoleError}
    (h : HoleFault after n e) : e.offset = n := by
  cases h <;> rfl

theorem HoleFault.unique {after : List Char} {n : Nat} {e e' : HoleError}
    (h : HoleFault after n e) (h' : HoleFault after n e') : e = e' := by
  cases h with
  | emptyName h =>
      cases h' with
      | emptyName => rfl
      | unterminated h' => exact absurd h h'
  | unterminated h =>
      cases h' with
      | emptyName h' => exact absurd h' h
      | unterminated => rfl

theorem lexeme_hole (after : List Char) :
    ∃ (q : Quantifier) (cs : List Char), lexeme ':' ('[' :: after) = lexHole q cs ∧
      ':' :: '[' :: after = q.opening.toList ++ cs ∧
      ((∃ name rest, isName name = true ∧ cs = name ++ (q.closing.toList ++ rest)) →
        OpensHole after) ∧
      (NameMissing after ↔ q.closing.toList <+: cs) := by
  by_cases hblock : ∃ cs, after = '[' :: cs
  · obtain ⟨cs, rfl⟩ := hblock
    refine ⟨.block, cs, rfl, rfl, ?_, by simp [NameMissing, Quantifier.closing]⟩
    rintro ⟨name, rest, hname, rfl⟩
    exact ⟨name, rest, hname, .inr rfl⟩
  · refine ⟨.one, after, lexeme_one fun cs heq => hblock ⟨cs, heq⟩, rfl, ?_, ?_, .inl⟩
    · rintro ⟨name, rest, hname, heq⟩
      exact ⟨name, rest, hname, .inl heq⟩
    · rintro (hone | ⟨rest, rfl⟩)
      · exact hone
      · exact absurd ⟨_, rfl⟩ hblock

theorem lexeme_of_not_opensHole {after : List Char} (h : ¬ OpensHole after) :
    ∃ error read rest, lexeme ':' ('[' :: after) = .malformed error read rest ∧
      ∀ n, HoleFault after n (error n) := by
  obtain ⟨q, cs, hlexeme, _, hopens, hmissing⟩ := lexeme_hole after
  obtain ⟨error, read, rest, hmalformed, hempty, hopen⟩ :=
    lexHole_of_not (q := q) fun hname => h (hopens hname)
  refine ⟨error, read, rest, hlexeme.trans hmalformed, fun n => ?_⟩
  by_cases hname : q.closing.toList <+: cs
  · rw [hempty hname]
    exact .emptyName (hmissing.mpr hname)
  · rw [hopen hname]
    exact .unterminated fun hno => hname (hmissing.mp hno)

theorem lexeme_cases (c : Char) (cs : List Char) :
    (∃ kind value rest, lexeme c cs = .token kind value rest ∧ c :: cs = value ++ rest ∧
        value ≠ [] ∧ Spelled kind value rest) ∨
      ∃ after error read rest, c = ':' ∧ cs = '[' :: after ∧ ¬ OpensHole after ∧
        lexeme c cs = .malformed error read rest ∧ ∀ n, HoleFault after n (error n) := by
  cases hstops : stopsText (c :: cs) with
  | false =>
      refine .inl ⟨_, _, _, lexeme_plain hstops, ?_, by simp, .of_plain hstops⟩
      rw [List.cons_append, List.prefix_iff_eq_append.mp (textRun_isPrefix cs)]
  | true =>
      simp only [stopsText, Bool.or_eq_true, Bool.and_eq_true, beq_iff_eq] at hstops
      rcases hstops with ((rfl | rfl) | hblank) | ⟨rfl, hbracket⟩
      · exact .inl ⟨_, _, _, rfl, rfl, by simp, .openBrace⟩
      · exact .inl ⟨_, _, _, rfl, rfl, by simp, .closeBrace⟩
      · refine .inl ⟨_, _, _, lexeme_blank hblank, ?_, by simp, .blank ?_⟩
        · rw [List.cons_append, List.takeWhile_append_dropWhile]
        · simp [hblank, List.all_takeWhile]
      · obtain ⟨after, rfl⟩ := List.head?_eq_some_iff.mp hbracket
        by_cases hopens : OpensHole after
        · obtain ⟨hole, rest, hname, hkind, hsource⟩ := opensHole_iff.mp hopens
          obtain ⟨c, cs, hwhole, hlexeme⟩ := hole.exists_lexeme hname hkind rest
          obtain ⟨rfl, rfl⟩ := List.cons_eq_cons.mp (hwhole.symm.trans hsource)
          refine .inl ⟨_, _, _, hlexeme, hsource.symm, ?_, .hole hname hkind⟩
          rw [Hole.source]
          cases hole.quantifier <;> simp [Quantifier.opening]
        · obtain ⟨error, read, rest, hlexeme, hfault⟩ := lexeme_of_not_opensHole hopens
          exact .inr ⟨after, error, read, rest, rfl, rfl, hopens, hlexeme, hfault⟩

/-! ## All tokens -/

inductive Lexes : Nat → List Char → List Token → Prop where
  | nil {n : Nat} : Lexes n [] []
  | cons {n : Nat} {c : Char} {cs value rest : List Char} {kind : TokenKind} {ts : List Token}
      (hlexeme : lexeme c cs = .token kind value rest)
      (hrest : Lexes (n + byteLength value) rest ts) :
      Lexes n (c :: cs) (⟨kind, String.ofList value, n⟩ :: ts)

def HolesIn (cs : List Char) : Prop :=
  ∀ front after, cs = front ++ ':' :: '[' :: after → OpensHole after

structure FirstFault (cs before after : List Char) : Prop where
  split : cs = before ++ ':' :: '[' :: after
  fault : ¬ OpensHole after
  earlier : ∀ front after', cs = front ++ ':' :: '[' :: after' → front.length < before.length →
    OpensHole after'

theorem Spelled.of_lexeme {c : Char} {cs value rest : List Char} {kind : TokenKind}
    (h : lexeme c cs = .token kind value rest) :
    c :: cs = value ++ rest ∧ Spelled kind value rest := by
  rcases lexeme_cases c cs with
    ⟨_, _, _, htoken, hwhole, _, hspelled⟩ | ⟨_, _, _, _, _, _, _, hmalformed, _⟩
  · rw [h, Lexed.token.injEq] at htoken
    obtain ⟨rfl, rfl, rfl⟩ := htoken
    exact ⟨hwhole, hspelled⟩
  · simp [h] at hmalformed

theorem ne_nil_of_lexeme {c : Char} {cs value rest : List Char} {kind : TokenKind}
    (h : lexeme c cs = .token kind value rest) : value ≠ [] := by
  rcases lexeme_cases c cs with
    ⟨_, _, _, htoken, _, hvalue, _⟩ | ⟨_, _, _, _, _, _, _, hmalformed, _⟩
  · rw [h, Lexed.token.injEq] at htoken
    obtain ⟨_, rfl, _⟩ := htoken
    exact hvalue
  · simp [h] at hmalformed

theorem Hole.exists_source (h : Hole) (hname : isName h.name.toList = true) :
    ∃ run, h.source.toList = ':' :: run ∧ ∀ c ∈ run, c = '[' ∨ c = ']' ∨ isNameChar c = true := by
  refine ⟨h.quantifier.opening.toList.tail ++ (h.name.toList ++ h.quantifier.closing.toList), ?_,
    fun c hc => ?_⟩
  · rw [source]
    cases h.quantifier <;> simp [Quantifier.opening]
  · rw [List.mem_append, List.mem_append] at hc
    rcases hc with hc | hc | hc
    · left
      cases hq : h.quantifier <;> simp_all [Quantifier.opening]
    · exact .inr (.inr (List.all_eq_true.mp (all_isNameChar_of_isName hname) c hc))
    · right; left
      cases hq : h.quantifier <;> simp_all [Quantifier.closing]

theorem Spelled.of_occurrence {kind : TokenKind} {value rest front after : List Char}
    (h : Spelled kind value rest) (hwhole : value ++ rest = front ++ ':' :: '[' :: after) :
    OpensHole after ∧ front.length < value.length ∨
      ∃ front', front = value ++ front' ∧ rest = front' ++ ':' :: '[' :: after := by
  rcases List.append_eq_append_iff.mp hwhole with ⟨front', hfront, hrest⟩ | ⟨back, rfl, hback⟩
  · exact .inr ⟨front', hfront, hrest⟩
  · cases back with
    | nil => exact .inr ⟨[], by simp, by simpa using hback.symm⟩
    | cons c back =>
        rw [List.cons_append, List.cons.injEq] at hback
        obtain ⟨rfl, hback⟩ := hback
        refine .inl ⟨?_, by simp⟩
        generalize hvalue : front ++ ':' :: back = value at h hwhole
        have hcolon : ':' ∈ value := by simp [← hvalue]
        cases h with
        | openBrace => simp at hcolon
        | closeBrace => simp at hcolon
        | blank hblank => simpa [isBlank] using List.all_eq_true.mp hblank _ hcolon
        | @hole hole _ hname hkind =>
            obtain ⟨run, hrun, hchars⟩ := hole.exists_source hname
            cases front with
            | nil => exact opensHole_iff.mpr ⟨hole, rest, hname, hkind, hwhole⟩
            | cons c front =>
                rw [hrun, List.cons_append, List.cons.injEq] at hvalue
                have hname := hchars ':' (by simp [← hvalue.2])
                simp [isNameChar] at hname
        | text hplain =>
            have hstops := hplain front (':' :: back) hvalue.symm (by simp)
            simp [stopsText, ← hback] at hstops

/-! ## The whole text -/

section

variable {n : Nat} {c : Char} {cs value rest : List Char} {kind : TokenKind}

theorem holesIn_append_iff (h : Spelled kind value rest) :
    HolesIn (value ++ rest) ↔ HolesIn rest := by
  constructor
  · rintro hholes front after rfl
    exact hholes (value ++ front) after (by simp)
  · intro hholes front after hwhole
    rcases h.of_occurrence hwhole with ⟨hopens, _⟩ | ⟨front', _, hrest⟩
    · exact hopens
    · exact hholes front' after hrest

theorem FirstFault.append {before after : List Char} (hfault : FirstFault rest before after)
    (h : Spelled kind value rest) : FirstFault (value ++ rest) (value ++ before) after where
  split := by rw [hfault.split, List.append_assoc]
  fault := hfault.fault
  earlier := by
    intro front after' hwhole hlt
    rcases h.of_occurrence hwhole with ⟨hopens, _⟩ | ⟨front', rfl, hrest⟩
    · exact hopens
    · exact hfault.earlier front' after' hrest (by simpa using hlt)

theorem Lexer.tokenize_eq_of_token (h : lexeme c cs = .token kind value rest) :
    (Lexer.mk (c :: cs) n).tokenize =
      ((Lexer.mk rest (n + byteLength value)).tokenize.1.map
          (⟨kind, String.ofList value, n⟩ :: ·),
        (Lexer.mk rest (n + byteLength value)).tokenize.2) := by
  rw [tokenize]
  split
  · simp_all
  · rename_i heq
    rw [h, Lexed.token.injEq] at heq
    obtain ⟨rfl, rfl, rfl⟩ := heq
    cases (Lexer.mk rest (n + byteLength value)).tokenize with
    | mk result l => cases result <;> rfl

theorem Lexer.tokenize_eq_of_malformed {error : Nat → HoleError} {read : List Char}
    (h : lexeme c cs = .malformed error read rest) :
    (Lexer.mk (c :: cs) n).tokenize = (.error (error n), ⟨rest, n + byteLength read⟩) := by
  rw [tokenize]
  split
  · simp_all
  · simp_all

theorem Lexer.tokenize_of_token (h : lexeme c cs = .token kind value rest) :
    (Lexer.mk (c :: cs) n).tokenize.1 =
      (Lexer.mk rest (n + byteLength value)).tokenize.1.map
        (⟨kind, String.ofList value, n⟩ :: ·) := by
  rw [tokenize_eq_of_token h]

theorem Lexer.tokenize_of_malformed {error : Nat → HoleError} {read : List Char}
    (h : lexeme c cs = .malformed error read rest) :
    (Lexer.mk (c :: cs) n).tokenize.1 = .error (error n) := by
  rw [tokenize_eq_of_malformed h]

theorem Lexer.tokenize_of_lexes {ts : List Token} (h : Lexes n cs ts) :
    (Lexer.mk cs n).tokenize.1 = .ok (ts ++ [⟨.finish, "", n + byteLength cs⟩]) := by
  induction h with
  | nil =>
      rw [tokenize]
      rfl
  | cons hlexeme _ ih =>
      rw [tokenize_of_token hlexeme, ih, (Spelled.of_lexeme hlexeme).1, byteLength_append,
        Nat.add_assoc]
      rfl

theorem Lexer.tokenize_cases (n : Nat) (cs : List Char) :
    (HolesIn cs ∧ ∃ ts, Lexes n cs ts) ∨
      ∃ before after e, FirstFault cs before after ∧
        HoleFault after (n + byteLength before) e ∧ (Lexer.mk cs n).tokenize.1 = .error e := by
  induction hlength : cs.length using Nat.strongRecOn generalizing n cs with
  | ind length ih =>
      cases cs with
      | nil => exact .inl ⟨fun front after hnil => by simp at hnil, [], .nil⟩
      | cons c cs =>
          rcases lexeme_cases c cs with ⟨kind, value, rest, htoken, hwhole, hvalue, hspelled⟩ |
            ⟨after, error, read, rest, rfl, rfl, hopens, hmalformed, hfault⟩
          · have hshort : rest.length < length := by
              rw [← hlength, hwhole, List.length_append]
              have := List.length_pos_iff.mpr hvalue
              omega
            rcases ih _ hshort (n + byteLength value) rest rfl with
              ⟨hholes, ts, hlexes⟩ | ⟨before, after, e, hfirst, hfault, herror⟩
            · refine .inl ⟨?_, _, .cons htoken hlexes⟩
              rw [hwhole]
              exact (holesIn_append_iff hspelled).mpr hholes
            · rw [tokenize_of_token htoken, hwhole]
              refine .inr ⟨value ++ before, after, e, hfirst.append hspelled, ?_, ?_⟩
              · rwa [byteLength_append, ← Nat.add_assoc]
              · rw [herror]
                rfl
          · refine .inr ⟨[], after, _, ⟨rfl, hopens, ?_⟩, hfault n,
              tokenize_of_malformed hmalformed⟩
            intro front after' _ hlt
            simp at hlt

theorem Lexes.kind_ne_finish {ts : List Token} (h : Lexes n cs ts) :
    ∀ token ∈ ts, token.kind ≠ .finish := by
  induction h with
  | nil => simp
  | cons hlexeme _ ih =>
      rw [List.forall_mem_cons]
      refine ⟨?_, ih⟩
      cases (Spelled.of_lexeme hlexeme).2 <;> simp

theorem Pattern.compile_of_lexes {pattern : String} {ts : List Token}
    (h : Lexes 0 pattern.toList ts) :
    compile pattern = match braceDefect? [] ts with
      | some (e, _) => .error (.brace e)
      | none => .ok (ofTokens ts) := by
  have hkinds : ∀ token ∈ ts, (token.kind != .finish) = true :=
    fun token htoken => bne_iff_ne.mpr (h.kind_ne_finish token htoken)
  simp only [compile, lex, Lexer.ofString, Lexer.tokenize_of_lexes h, Parser.parse,
    List.takeWhile_append_of_pos hkinds]
  rw [List.takeWhile_cons, if_neg (by simp), List.append_nil]
  cases braceDefect? [] ts with
  | none => rfl
  | some defect => rfl

end

end Stencil
