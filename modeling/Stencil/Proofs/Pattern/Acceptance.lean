import Stencil.Proofs.Pattern.Lexing

/-!
# Accepted patterns

A pattern compiles exactly if each `:[` in it starts a hole and its braces pair
up.  Holes are looked at first, so a brace is blamed only where all of them are
well formed.
-/

namespace Stencil

/-! ## Braces -/

/-- The text never closes more than it opens, `k` braces being open before it. -/
def ClosesOpen (k : Nat) (cs : List Char) : Prop :=
  ∀ front, front <+: cs → front.count '\x7d' ≤ front.count '\x7b' + k

def ClosesAll (k : Nat) (cs : List Char) : Prop :=
  ClosesOpen k cs ∧ cs.count '\x7d' = cs.count '\x7b' + k

/-- What is wrong with braces that do not pair up: the first closing brace that
finds none open, or else the last opening one that stays open. -/
inductive BraceFault (cs : List Char) : BraceError → Prop where
  | unmatched {before after : List Char} (hcs : cs = before ++ '\x7d' :: after)
      (hbefore : ClosesAll 0 before) : BraceFault cs (.unmatched (byteLength before))
  | unclosed {before after : List Char} (hopen : ClosesOpen 0 cs)
      (hcs : cs = before ++ '\x7b' :: after) (hafter : ClosesAll 0 after) :
      BraceFault cs (.unclosed (byteLength before))

section

variable {k : Nat} {c : Char} {cs : List Char}

theorem closesOpen_cons_iff :
    ClosesOpen k (c :: cs) ↔ ∀ front, front <+: cs →
      (c :: front).count '\x7d' ≤ (c :: front).count '\x7b' + k := by
  constructor
  · intro h front hfront
    exact h _ (List.cons_prefix_cons.mpr ⟨rfl, hfront⟩)
  · intro h front hfront
    rcases List.prefix_cons_iff.mp hfront with rfl | ⟨rest, rfl, hrest⟩
    · simp
    · exact h rest hrest

theorem ClosesOpen.mono {j : Nat} (h : ClosesOpen j cs) (hjk : j ≤ k) : ClosesOpen k cs := by
  intro front hfront
  have := h front hfront
  omega

theorem closesAll_nil_iff : ClosesAll k [] ↔ k = 0 := by
  simp [ClosesAll, ClosesOpen, eq_comm]

theorem closesOpen_opening_iff : ClosesOpen k ('\x7b' :: cs) ↔ ClosesOpen (k + 1) cs := by
  rw [closesOpen_cons_iff, ClosesOpen]
  simp only [List.count_cons, beq_iff_eq, Char.reduceEq, if_false, if_true]
  refine forall_congr' fun front => forall_congr' fun _ => ?_
  omega

theorem closesAll_opening_iff : ClosesAll k ('\x7b' :: cs) ↔ ClosesAll (k + 1) cs := by
  rw [ClosesAll, closesOpen_opening_iff, ClosesAll]
  simp only [List.count_cons, beq_iff_eq, Char.reduceEq, if_false, if_true]
  refine and_congr_right fun _ => ?_
  omega

theorem closesOpen_closing_iff :
    ClosesOpen k ('\x7d' :: cs) ↔ 0 < k ∧ ClosesOpen (k - 1) cs := by
  rw [closesOpen_cons_iff]
  simp only [List.count_cons, beq_iff_eq, Char.reduceEq, if_false, if_true]
  constructor
  · intro h
    have hpos := h [] List.nil_prefix
    simp only [List.count_nil] at hpos
    refine ⟨by omega, fun front hfront => ?_⟩
    have := h front hfront
    omega
  · rintro ⟨hpos, h⟩ front hfront
    have := h front hfront
    omega

theorem closesAll_closing_iff : ClosesAll k ('\x7d' :: cs) ↔ 0 < k ∧ ClosesAll (k - 1) cs := by
  rw [ClosesAll, closesOpen_closing_iff, ClosesAll, and_assoc]
  simp only [List.count_cons, beq_iff_eq, Char.reduceEq, if_false, if_true]
  refine and_congr_right fun hpos => and_congr_right fun _ => ?_
  omega

theorem closesOpen_plain_iff (hopening : c ≠ '\x7b') (hclosing : c ≠ '\x7d') :
    ClosesOpen k (c :: cs) ↔ ClosesOpen k cs := by
  rw [closesOpen_cons_iff]
  simp [hopening, hclosing, ClosesOpen]

theorem closesAll_plain_iff (hopening : c ≠ '\x7b') (hclosing : c ≠ '\x7d') :
    ClosesAll k (c :: cs) ↔ ClosesAll k cs := by
  rw [ClosesAll, closesOpen_plain_iff hopening hclosing, ClosesAll]
  simp [hopening, hclosing]

theorem braces_cases (k : Nat) (cs : List Char) :
    (∃ before after, cs = before ++ '\x7d' :: after ∧ ClosesAll k before) ∨
      ClosesOpen k cs ∧
        ((∃ before after, cs = before ++ '\x7b' :: after ∧ ClosesAll 0 after) ∨
          ∃ j, j ≤ k ∧ ClosesAll j cs) := by
  induction cs generalizing k with
  | nil =>
      exact .inr ⟨(closesAll_nil_iff.mpr rfl).1.mono (Nat.zero_le k), .inr ⟨0, Nat.zero_le k,
        closesAll_nil_iff.mpr rfl⟩⟩
  | cons c cs ih =>
      by_cases hopening : c = '\x7b'
      · subst hopening
        rcases ih (k + 1) with ⟨before, after, rfl, hbefore⟩ | ⟨hopen, hrest⟩
        · exact .inl ⟨'\x7b' :: before, after, rfl, closesAll_opening_iff.mpr hbefore⟩
        · refine .inr ⟨closesOpen_opening_iff.mpr hopen, ?_⟩
          rcases hrest with ⟨before, after, rfl, hafter⟩ | ⟨j, hj, hall⟩
          · exact .inl ⟨'\x7b' :: before, after, rfl, hafter⟩
          · cases j with
            -- Nothing closes the brace just passed.
            | zero => exact .inl ⟨[], cs, rfl, hall⟩
            | succ j => exact .inr ⟨j, by omega, closesAll_opening_iff.mpr hall⟩
      by_cases hclosing : c = '\x7d'
      · subst hclosing
        cases k with
        | zero => exact .inl ⟨[], cs, rfl, closesAll_nil_iff.mpr rfl⟩
        | succ k =>
            rcases ih k with ⟨before, after, rfl, hbefore⟩ | ⟨hopen, hrest⟩
            · exact .inl ⟨'\x7d' :: before, after, rfl,
                closesAll_closing_iff.mpr ⟨Nat.succ_pos k, hbefore⟩⟩
            · refine .inr ⟨closesOpen_closing_iff.mpr ⟨Nat.succ_pos k, hopen⟩, ?_⟩
              rcases hrest with ⟨before, after, rfl, hafter⟩ | ⟨j, hj, hall⟩
              · exact .inl ⟨'\x7d' :: before, after, rfl, hafter⟩
              · exact .inr ⟨j + 1, by omega, closesAll_closing_iff.mpr ⟨Nat.succ_pos j, hall⟩⟩
      · rcases ih k with ⟨before, after, rfl, hbefore⟩ | ⟨hopen, hrest⟩
        · exact .inl ⟨c :: before, after, rfl, (closesAll_plain_iff hopening hclosing).mpr hbefore⟩
        · refine .inr ⟨(closesOpen_plain_iff hopening hclosing).mpr hopen, ?_⟩
          rcases hrest with ⟨before, after, rfl, hafter⟩ | ⟨j, hj, hall⟩
          · exact .inl ⟨c :: before, after, rfl, hafter⟩
          · exact .inr ⟨j, hj, (closesAll_plain_iff hopening hclosing).mpr hall⟩

end

/-! ## The check of braces -/

def braceFault? (n : Nat) (opened : List Nat) : List Char → Option BraceError
  | [] => opened.head?.map .unclosed
  | c :: cs =>
    if c = '\x7b' then braceFault? (n + c.utf8Size) (n :: opened) cs
    else if c = '\x7d' then
      match opened with
      | [] => some (.unmatched n)
      | _ :: outer => braceFault? (n + c.utf8Size) outer cs
    else braceFault? (n + c.utf8Size) opened cs

section

variable {n k : Nat} {cs : List Char}

theorem braceFault?_plain {value : List Char}
    (h : ∀ c ∈ value, c ≠ '\x7b' ∧ c ≠ '\x7d') (n : Nat) (opened : List Nat) (rest : List Char) :
    braceFault? n opened (value ++ rest) = braceFault? (n + byteLength value) opened rest := by
  induction value generalizing n with
  | nil => rfl
  | cons c value ih =>
      have hc := h c (by simp)
      simp only [List.cons_append, braceFault?, hc.1, hc.2, if_false]
      rw [ih fun c' hc' => h c' (by simp [hc']), byteLength_cons, Nat.add_assoc]

theorem braceFault?_of_closesOpen (h : ClosesOpen k cs) (n : Nat) {opened : List Nat}
    (hlength : opened.length = k) :
    ∃ opened', opened'.length + cs.count '\x7d' = cs.count '\x7b' + k ∧
      ∀ outer rest, braceFault? n (opened ++ outer) (cs ++ rest) =
        braceFault? (n + byteLength cs) (opened' ++ outer) rest := by
  induction cs generalizing n k opened with
  | nil => exact ⟨opened, by simp [hlength], fun _ _ => rfl⟩
  | cons c cs ih =>
      simp only [List.cons_append, braceFault?, byteLength_cons, ← Nat.add_assoc, List.count_cons,
        beq_iff_eq]
      by_cases hopening : c = '\x7b'
      · subst hopening
        have hopened : (n :: opened).length = k + 1 := by simp [hlength]
        obtain ⟨opened', hcount, hsame⟩ := ih (closesOpen_opening_iff.mp h) _ hopened
        refine ⟨opened', ?_, by simpa using hsame⟩
        simp only [Char.reduceEq, if_true, if_false]
        omega
      by_cases hclosing : c = '\x7d'
      · subst hclosing
        obtain ⟨hpos, h⟩ := closesOpen_closing_iff.mp h
        obtain ⟨top, opened, rfl⟩ := List.exists_cons_of_length_pos (hlength ▸ hpos)
        have hopened : opened.length = k - 1 := by rw [← hlength]; rfl
        obtain ⟨opened', hcount, hsame⟩ := ih h _ hopened
        refine ⟨opened', ?_, by simpa using hsame⟩
        simp only [Char.reduceEq, if_true, if_false]
        omega
      · obtain ⟨opened', hcount, hsame⟩ :=
          ih ((closesOpen_plain_iff hopening hclosing).mp h) _ hlength
        simp only [hopening, hclosing, if_false, Nat.add_zero]
        exact ⟨opened', hcount, hsame⟩

theorem braceFault?_of_closesAll (h : ClosesAll 0 cs) (n : Nat) (outer : List Nat)
    (rest : List Char) :
    braceFault? n outer (cs ++ rest) = braceFault? (n + byteLength cs) outer rest := by
  have hnone : ([] : List Nat).length = 0 := rfl
  obtain ⟨opened', hcount, hsame⟩ := braceFault?_of_closesOpen h.1 n hnone
  have hnil : opened' = [] := List.eq_nil_of_length_eq_zero (by have := h.2; omega)
  subst hnil
  exact hsame outer rest

theorem braceFault?_eq_none_of_closesAll (h : ClosesAll 0 cs) : braceFault? 0 [] cs = none := by
  simpa [braceFault?] using braceFault?_of_closesAll h 0 [] []

theorem braceFault?_of_braceFault {e : BraceError} (h : BraceFault cs e) :
    braceFault? 0 [] cs = some e := by
  cases h with
  | @unmatched before after hcs hbefore =>
      rw [hcs, braceFault?_of_closesAll hbefore]
      simp [braceFault?]
  | @unclosed before after hopen hcs hafter =>
      have hbefore : ClosesOpen 0 before := fun front hfront =>
        hopen front (hfront.trans (hcs ▸ List.prefix_append _ _))
      have hnone : ([] : List Nat).length = 0 := rfl
      obtain ⟨opened, _, hopened⟩ := braceFault?_of_closesOpen hbefore 0 hnone
      calc
        braceFault? 0 [] cs =
            braceFault? (0 + byteLength before) (opened ++ []) ('\x7b' :: after) := by
          rw [hcs]
          exact hopened [] _
        _ = braceFault? (byteLength before + 1) (byteLength before :: opened) (after ++ []) := by
          rw [List.append_nil, List.append_nil, Nat.zero_add]
          rfl
        _ = some (.unclosed (byteLength before)) := by
          rw [braceFault?_of_closesAll hafter]
          rfl

theorem closesAll_or_braceFault (cs : List Char) : ClosesAll 0 cs ∨ ∃ e, BraceFault cs e := by
  rcases braces_cases 0 cs with ⟨before, after, hcs, hbefore⟩ | ⟨hopen, hrest⟩
  · exact .inr ⟨_, .unmatched hcs hbefore⟩
  · rcases hrest with ⟨before, after, hcs, hafter⟩ | ⟨j, hj, hall⟩
    · exact .inr ⟨_, .unclosed hopen hcs hafter⟩
    · obtain rfl : j = 0 := by omega
      exact .inl hall

theorem Spelled.not_brace {kind : TokenKind} {value rest : List Char}
    (h : Spelled kind value rest) (hopening : kind ≠ .openBrace) (hclosing : kind ≠ .closeBrace) :
    ∀ c ∈ value, c ≠ '\x7b' ∧ c ≠ '\x7d' := by
  intro c hc
  cases h with
  | openBrace => contradiction
  | closeBrace => contradiction
  | blank hblank =>
      have hc := List.all_eq_true.mp hblank c hc
      constructor <;> rintro rfl <;> simp [isBlank] at hc
  | @hole hole _ hname =>
      obtain ⟨run, hrun, hchars⟩ := hole.exists_source hname
      rw [hrun, List.mem_cons] at hc
      rcases hc with rfl | hc
      · simp
      · have hc := hchars c hc
        constructor <;> rintro rfl <;> simp [isNameChar] at hc
  | text hplain =>
      obtain ⟨front, back, rfl⟩ := List.append_of_mem hc
      have hstops := hplain front (c :: back) rfl (by simp)
      constructor <;> rintro rfl <;> simp [stopsText] at hstops

theorem braceDefect?_opening {token : Token} (h : token.kind = .openBrace) (opened : List Nat)
    (ts : List Token) :
    braceDefect? opened (token :: ts) = braceDefect? (token.offset :: opened) ts := by
  simp [braceDefect?, h]

theorem braceDefect?_closing {token : Token} (h : token.kind = .closeBrace) (opened : List Nat)
    (ts : List Token) :
    braceDefect? opened (token :: ts) = match opened with
      | [] => some (.unmatched token.offset, ts)
      | _ :: outer => braceDefect? outer ts := by
  cases opened <;> simp [braceDefect?, h]

theorem braceDefect?_other {token : Token} (hopening : token.kind ≠ .openBrace)
    (hclosing : token.kind ≠ .closeBrace) (opened : List Nat) (ts : List Token) :
    braceDefect? opened (token :: ts) = braceDefect? opened ts := by
  cases hkind : token.kind <;> simp_all [braceDefect?]

theorem Lexes.braceFault?_eq {ts : List Token} (h : Lexes n cs ts) (opened : List Nat) :
    (braceDefect? opened ts).map (·.1) = braceFault? n opened cs := by
  induction h generalizing opened with
  | nil => simp [braceDefect?, braceFault?, Function.comp_def]
  | @cons n c cs value rest kind ts hlexeme _ ih =>
      obtain ⟨hwhole, hspelled⟩ := Spelled.of_lexeme hlexeme
      rw [hwhole]
      by_cases hopening : kind = .openBrace
      · subst hopening
        cases hspelled with
        | openBrace => simpa [braceDefect?, braceFault?] using ih (n :: opened)
      by_cases hclosing : kind = .closeBrace
      · subst hclosing
        cases hspelled with
        | closeBrace =>
            cases opened with
            | nil => simp [braceDefect?, braceFault?]
            | cons top outer => simpa [braceDefect?, braceFault?] using ih outer
      · rw [braceFault?_plain (hspelled.not_brace hopening hclosing), ← ih opened,
          braceDefect?_other hopening hclosing]

end

/-! ## The compiler -/

inductive Defect (cs : List Char) : CompileError → Prop where
  | hole {before after : List Char} {e : HoleError} (hfirst : FirstFault cs before after)
      (hfault : HoleFault after (byteLength before) e) : Defect cs (.hole e)
  | brace {e : BraceError} (hholes : HolesIn cs) (hfault : BraceFault cs e) :
      Defect cs (.brace e)

theorem HolesIn.not_firstFault {cs before after : List Char} (h : HolesIn cs) :
    ¬ FirstFault cs before after :=
  fun hfirst => hfirst.fault (h before after hfirst.split)

theorem FirstFault.unique {cs before after before' after' : List Char}
    (h : FirstFault cs before after) (h' : FirstFault cs before' after') :
    before = before' ∧ after = after' := by
  have hlength : before.length = before'.length := by
    rcases Nat.lt_trichotomy before.length before'.length with hlt | heq | hlt
    · exact absurd (h'.earlier _ _ h.split hlt) h.fault
    · exact heq
    · exact absurd (h.earlier _ _ h'.split hlt) h'.fault
  obtain ⟨rfl, hafter⟩ := List.append_inj (h.split.symm.trans h'.split) hlength
  simpa using hafter

namespace Pattern

theorem exists_compile_of_braces {pattern : String} {ts : List Token}
    (h : Lexes 0 pattern.toList ts) :
    (ClosesAll 0 pattern.toList → ∃ p, compile pattern = .ok p) ∧
      ∀ e, BraceFault pattern.toList e → compile pattern = .error (.brace e) := by
  have hcheck := h.braceFault?_eq []
  rw [compile_of_lexes h]
  constructor
  · intro hall
    rw [braceFault?_eq_none_of_closesAll hall, Option.map_eq_none_iff] at hcheck
    rw [hcheck]
    exact ⟨_, rfl⟩
  · intro e he
    rw [braceFault?_of_braceFault he, Option.map_eq_some_iff] at hcheck
    obtain ⟨⟨e', unread⟩, hdefect, rfl⟩ := hcheck
    rw [hdefect]

theorem compile_eq_error_of_defect {pattern : String} {e : CompileError}
    (h : Defect pattern.toList e) : compile pattern = .error e := by
  rcases Lexer.tokenize_cases 0 pattern.toList with ⟨hholes, ts, hlexes⟩ |
    ⟨before, after, e', hfirst, hfault, herror⟩
  · cases h with
    | hole hfirst _ => exact absurd hfirst hholes.not_firstFault
    | brace _ hbrace => exact (exists_compile_of_braces hlexes).2 _ hbrace
  · cases h with
    | hole hfirst' hfault' =>
        obtain ⟨rfl, rfl⟩ := hfirst.unique hfirst'
        rw [Nat.zero_add] at hfault
        rw [compile, lex, Lexer.ofString, herror, hfault.unique hfault']
    | brace hholes _ => exact absurd hfirst hholes.not_firstFault

/-- A pattern is accepted exactly if every `:[` in it starts a hole and its braces
pair up, and otherwise the error is about what is wrong with it. -/
theorem compile_accepts (pattern : String) :
    ((∃ p, compile pattern = .ok p) ↔
        HolesIn pattern.toList ∧ ClosesAll 0 pattern.toList) ∧
      ∀ e, compile pattern = .error e ↔ Defect pattern.toList e := by
  have htotal : HolesIn pattern.toList ∧ ClosesAll 0 pattern.toList ∧
      (∃ p, compile pattern = .ok p) ∨ ∃ e, Defect pattern.toList e := by
    rcases Lexer.tokenize_cases 0 pattern.toList with ⟨hholes, ts, hlexes⟩ |
      ⟨before, after, e, hfirst, hfault, _⟩
    · rcases closesAll_or_braceFault pattern.toList with hall | ⟨e, he⟩
      · exact .inl ⟨hholes, hall, (exists_compile_of_braces hlexes).1 hall⟩
      · exact .inr ⟨_, .brace hholes he⟩
    · rw [Nat.zero_add] at hfault
      exact .inr ⟨_, .hole hfirst hfault⟩
  rcases htotal with ⟨hholes, hall, p, hp⟩ | ⟨e, he⟩
  · refine ⟨iff_of_true ⟨p, hp⟩ ⟨hholes, hall⟩, fun e => iff_of_false (by simp [hp]) fun he => ?_⟩
    simp [compile_eq_error_of_defect he] at hp
  · have herror := compile_eq_error_of_defect he
    refine ⟨iff_of_false (by simp [herror]) ?_,
      fun e' => ⟨fun he' => ?_, compile_eq_error_of_defect⟩⟩
    · rintro ⟨hholes, hall⟩
      cases he with
      | hole hfirst _ => exact hholes.not_firstFault hfirst
      | brace _ hfault =>
          have hnone := braceFault?_eq_none_of_closesAll hall
          rw [braceFault?_of_braceFault hfault] at hnone
          simp at hnone
    · rw [herror, Except.error.injEq] at he'
      exact he' ▸ he

/-- The braces do not pair up either, and there is a hole without a name. -/
example : (match compile "a\x7d \x7b:[x] :[[1]] :[]" with
    | .error e => e == .hole (.unterminated 9)
    | .ok _ => false) = true := by decide +kernel

end Pattern

end Stencil
