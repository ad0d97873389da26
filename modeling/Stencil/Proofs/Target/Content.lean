import Stencil.Proofs.Target.Acceptance
import Stencil.Proofs.Target.Bytes

/-!
# What tokens hold

The tokens of a text tile it, so only its brackets can keep it from making a target.
Outside of literals and comments each blank stands in a token of blanks and each bracket
is a token.
-/

namespace Stencil

/-! ## Lexemes -/

inductive LexemeKind.Admits : LexemeKind → List Char → Prop where
  | blank {text : List Char} (hblank : ∀ c ∈ text, isBlank c = true) : Admits .blank text
  | word {text : List Char} (hword : ∀ c ∈ text, isWordChar c = true ∨ c = '\'') :
      Admits .word text
  | literal {text : List Char} : Admits .literal text
  | comment {text : List Char} : Admits .comment text
  | punct {c : Char} (hblank : isBlank c = false) (hopening : Delimiter.ofOpening? c = none)
      (hclosing : Delimiter.ofClosing? c = none) : Admits .punct [c]
  | opening {c : Char} {d : Delimiter} (hopening : Delimiter.ofOpening? c = some d) :
      Admits (.opening d) [c]
  | closing {c : Char} {d : Delimiter} (hclosing : Delimiter.ofClosing? c = some d) :
      Admits (.closing d) [c]

theorem apostropheRun_admits (cs : List Char) :
    (apostropheRun cs).1.Admits ('\'' :: (apostropheRun cs).2) := by
  unfold apostropheRun
  split
  · exact .literal
  · split
    · exact .literal
    · split
      · refine .word (List.forall_mem_cons.mpr ⟨.inr rfl, fun c hc => .inl ?_⟩)
        exact List.all_eq_true.mp List.all_takeWhile c hc
      · exact .literal

theorem lexemeRun_admits (c : Char) (cs : List Char) :
    (lexemeRun c cs).1.Admits (c :: (lexemeRun c cs).2) := by
  have hrun : ∀ p : Char → Bool, p c = true → ∀ c' ∈ c :: cs.takeWhile p, p c' = true :=
    fun p hc => List.forall_mem_cons.mpr ⟨hc, List.all_eq_true.mp List.all_takeWhile⟩
  unfold lexemeRun
  split
  · rename_i hblank
    exact .blank (hrun _ hblank)
  · rename_i hblank
    rw [Bool.not_eq_true] at hblank
    split
    · exact .comment
    · split
      · exact .comment
      · split
        · exact .literal
        · split
          · rename_i hquote
            rw [beq_iff_eq.mp hquote]
            exact apostropheRun_admits cs
          · split
            · exact .literal
            · split
              · rename_i hword
                exact .word fun c' hc' => .inl (hrun _ hword c' hc')
              · split
                · exact .opening ‹_›
                · exact .closing ‹_›
                · exact .punct hblank ‹_› ‹_›

theorem lexemeRun_blank {c : Char} {cs : List Char} (h : (lexemeRun c cs).1 = .blank) :
    (lexemeRun c cs).2 = cs.takeWhile isBlank := by
  have hadmits := lexemeRun_admits c cs
  rw [h] at hadmits
  cases hadmits with
  | blank hblank => rw [lexemeRun, if_pos (hblank c (List.mem_cons_self ..))]

section

variable {kind : LexemeKind} {text : List Char} {c : Char} {d : Delimiter}

theorem isBlank_apart (h : isBlank c = true) :
    Delimiter.ofOpening? c = none ∧ Delimiter.ofClosing? c = none ∧
      ¬ (isWordChar c = true ∨ c = '\'') := by
  simp only [isBlank, Bool.or_eq_true, beq_iff_eq] at h
  rcases h with (((rfl | rfl) | rfl) | rfl) | rfl <;> decide

theorem ofOpening?_apart (h : Delimiter.ofOpening? c = some d) :
    Delimiter.ofClosing? c = none ∧ ¬ (isWordChar c = true ∨ c = '\'') := by
  unfold Delimiter.ofOpening? at h
  split at h
  · decide
  · decide
  · decide
  · contradiction

theorem ofClosing?_apart (h : Delimiter.ofClosing? c = some d) :
    Delimiter.ofOpening? c = none ∧ ¬ (isWordChar c = true ∨ c = '\'') := by
  unfold Delimiter.ofClosing? at h
  split at h
  · decide
  · decide
  · decide
  · contradiction

namespace LexemeKind.Admits

theorem kind_of_blank (h : kind.Admits text) (hc : c ∈ text) (hblank : isBlank c = true) :
    kind = .blank ∨ kind = .literal ∨ kind = .comment := by
  obtain ⟨hopening, hclosing, hword⟩ := isBlank_apart hblank
  cases h with
  | blank => exact .inl rfl
  | literal => exact .inr (.inl rfl)
  | comment => exact .inr (.inr rfl)
  | word h => exact absurd (h c hc) hword
  | punct h => simp_all
  | opening h | closing h => simp_all

theorem kind_of_opening (h : kind.Admits text) (hc : c ∈ text)
    (hopening : Delimiter.ofOpening? c = some d) :
    kind = .literal ∨ kind = .comment ∨ kind = .opening d := by
  obtain ⟨hclosing, hword⟩ := ofOpening?_apart hopening
  cases h with
  | literal => exact .inl rfl
  | comment => exact .inr (.inl rfl)
  | opening h => simp_all
  | blank h =>
      have := (isBlank_apart (h c hc)).1
      simp_all
  | word h => exact absurd (h c hc) hword
  | punct _ h => simp_all
  | closing h => simp_all

theorem kind_of_closing (h : kind.Admits text) (hc : c ∈ text)
    (hclosing : Delimiter.ofClosing? c = some d) :
    kind = .literal ∨ kind = .comment ∨ kind = .closing d := by
  obtain ⟨hopening, hword⟩ := ofClosing?_apart hclosing
  cases h with
  | literal => exact .inl rfl
  | comment => exact .inr (.inl rfl)
  | closing h => simp_all
  | blank h =>
      have := (isBlank_apart (h c hc)).2.1
      simp_all
  | word h => exact absurd (h c hc) hword
  | punct _ _ h => simp_all
  | opening h => simp_all

end LexemeKind.Admits

end

namespace Target

/-! ## Tokens -/

section

variable {source : String} {bytes : List UInt8} {pos stop i : Nat} {token : Token} {d : Delimiter}
  {text back cs : List Char} {tokens : List Token}

def Token.Covers (token : Token) (i : Nat) : Prop := token.span.start ≤ i ∧ i < token.span.stop

theorem Tiles.exists_covers (h : Tiles source pos tokens stop) (hpos : pos ≤ i) (hi : i < stop) :
    ∃ token ∈ tokens, token.Covers i := by
  induction tokens generalizing pos with
  | nil =>
      have := tiles_nil_iff.mp h
      omega
  | cons token tokens ih =>
      obtain ⟨⟨hstart, _, _⟩, hrest⟩ := tiles_cons_iff.mp h
      by_cases hlt : i < token.span.stop
      · exact ⟨token, List.mem_cons_self .., by omega, hlt⟩
      · obtain ⟨token', hmem, hcovers⟩ := ih hrest (Nat.le_of_not_lt hlt)
        exact ⟨token', List.mem_cons_of_mem _ hmem, hcovers⟩

theorem tiles_place {ls : List Lexeme} (hne : ∀ l ∈ ls, l.text ≠ []) {front : List Char}
    (hsource : source.toList = front ++ joined ls) :
    Tiles source (byteLength front) (place (byteLength front) ls) (byteLength source.toList) := by
  induction ls generalizing front with
  | nil =>
      rw [joined_nil, List.append_nil] at hsource
      exact tiles_nil_iff.mpr (by rw [hsource])
  | cons l ls ih =>
      have hpos := byteLength_pos (hne l (List.mem_cons_self ..))
      rw [joined_cons, ← List.append_assoc] at hsource
      have hrest := ih (fun l' hl' => hne l' (List.mem_cons_of_mem _ hl')) hsource
      rw [byteLength_append] at hrest
      exact tiles_cons_iff.mpr ⟨⟨rfl, Nat.lt_add_of_pos_right hpos,
        front ++ l.text, joined ls, hsource, byteLength_append ..⟩, hrest⟩

theorem tiles_scan (source : String) : Tiles source 0 (scan source) (byteLength source.toList) := by
  have hsource : source.toList = [] ++ joined (Stencil.lexemes source.toList) :=
    (joined_lexemes source.toList).symm
  exact tiles_place (text_ne_nil_of_mem_lexemes source.toList) hsource

theorem exists_run_of_mem_place (h : ByteScanner.Stands bytes pos cs)
    (htoken : token ∈ place pos (Stencil.lexemes cs)) :
    ∃ c rest, ByteScanner.Stands bytes token.span.start (c :: rest) ∧
      token.kind = (lexemeRun c rest).1 ∧
      token.span.stop = token.span.start + byteLength (c :: (lexemeRun c rest).2) := by
  fun_induction Stencil.lexemes cs generalizing pos with
  | case1 => simp [place] at htoken
  | case2 c cs run =>
      rename_i ih
      rcases List.mem_cons.mp htoken with rfl | htoken
      · exact ⟨c, cs, h, rfl, rfl⟩
      · have hcs : (c :: run.2) ++ cs.drop run.2.length = c :: cs := by
          rw [List.cons_append, List.prefix_iff_eq_append.mp (lexemeRun_isPrefix c cs)]
        exact ih (hcs.symm ▸ h).advance htoken

theorem exists_text_of_mem_scan (htoken : token ∈ scan source) :
    ∃ text back, ByteScanner.Stands (utf8Bytes source.toList) token.span.start (text ++ back) ∧
      token.span.stop = token.span.start + byteLength text ∧ token.kind.Admits text ∧
      (token.kind = .blank → ∀ c ∈ back.head?, isBlank c = false) := by
  obtain ⟨c, rest, hstands, hkind, hstop⟩ := exists_run_of_mem_place (.start _) htoken
  obtain ⟨back, hback⟩ := lexemeRun_isPrefix c rest
  refine ⟨c :: (lexemeRun c rest).2, back, ?_, hstop, hkind ▸ lexemeRun_admits c rest, ?_⟩
  · rwa [List.cons_append, hback]
  · intro hblank c' hc'
    rw [lexemeRun_blank (hkind ▸ hblank)] at hback
    have hdrop : back = rest.dropWhile isBlank :=
      List.append_cancel_left (hback.trans (List.takeWhile_append_dropWhile ..).symm)
    have hhead := List.head?_dropWhile_not isBlank rest
    rw [← hdrop, hc'] at hhead
    exact hhead

theorem blank_of_mem_scan (htoken : token ∈ scan source) (hkind : token.kind = .blank) :
    (∀ i, token.Covers i →
      ∃ b, (utf8Bytes source.toList)[i]? = some b ∧ ByteScanner.isBlank b = true) ∧
      ∀ b, (utf8Bytes source.toList)[token.span.stop]? = some b →
        ByteScanner.isBlank b = false := by
  obtain ⟨text, back, hstands, hstop, hadmits, hnext⟩ := exists_text_of_mem_scan htoken
  have hnext := hnext hkind
  rw [hkind] at hadmits
  cases hadmits with
  | blank hblank =>
      constructor
      · rintro i ⟨hstart, hlt⟩
        obtain ⟨c, hc, b, hb, hget⟩ := hstands.exists_char hstart (hstop ▸ hlt)
        exact ⟨b, hget, (ByteScanner.reflects_isBlank c b hb).trans (hblank c hc)⟩
      · intro b hb
        have hback := hstands.advance
        rw [← hstop] at hback
        cases back with
        | nil =>
            have hend := hback.length_eq
            have hlt := (List.getElem?_eq_some_iff.mp hb).1
            rw [byteLength_nil] at hend
            omega
        | cons c back =>
            obtain ⟨lead, hlead, hb', _⟩ := hback.getElem?_lead
            obtain rfl : lead = b := Option.some.inj (hb'.symm.trans hb)
            rw [ByteScanner.reflects_isBlank c lead hlead]
            exact hnext c rfl

theorem opening_of_mem_scan (htoken : token ∈ scan source) (hkind : token.kind = .opening d) :
    token.span.stop = token.span.start + 1 ∧
      ∃ b, (utf8Bytes source.toList)[token.span.start]? = some b ∧
        ByteScanner.opening? b = some d := by
  obtain ⟨text, back, hstands, hstop, hadmits, _⟩ := exists_text_of_mem_scan htoken
  rw [hkind] at hadmits
  cases hadmits with
  | @opening c _ hopening =>
      obtain ⟨lead, hlead, hb, _⟩ := hstands.getElem?_lead
      have hword := not_or.mp (ofOpening?_apart hopening).2
      refine ⟨?_, lead, hb, (ByteScanner.reflects_opening? c lead hlead).trans hopening⟩
      simpa [ByteScanner.utf8Size_of_not_isWordChar hword.1] using hstop

theorem closing_of_mem_scan (htoken : token ∈ scan source) (hkind : token.kind = .closing d) :
    token.span.stop = token.span.start + 1 ∧
      ∃ b, (utf8Bytes source.toList)[token.span.start]? = some b ∧
        ByteScanner.closing? b = some d := by
  obtain ⟨text, back, hstands, hstop, hadmits, _⟩ := exists_text_of_mem_scan htoken
  rw [hkind] at hadmits
  cases hadmits with
  | @closing c _ hclosing =>
      obtain ⟨lead, hlead, hb, _⟩ := hstands.getElem?_lead
      have hword := not_or.mp (ofClosing?_apart hclosing).2
      refine ⟨?_, lead, hb, (ByteScanner.reflects_closing? c lead hlead).trans hclosing⟩
      simpa [ByteScanner.utf8Size_of_not_isWordChar hword.1] using hstop

/-- Only brackets keep a scanned text from being a target. -/
theorem tokenize_ok_iff (source : String) :
    (∃ t, tokenize source = .ok t) ↔ BracketWord ((scan source).map (·.kind)) :=
  ⟨fun ⟨_, ht⟩ => (tiles_of_ofTokens? ht).2, exists_ofTokens?_of_tiles (tiles_scan source)⟩

theorem fault_of_tokenize {e : TargetError} (h : tokenize source = .error e) :
    ∃ fault : BracketFault, e.fault = fault.fault := by
  rw [tokenize_eq, ofLexemes?] at h
  cases hpairs : bracketPairs 0 [] ((Stencil.lexemes source.toList).map (·.kind)) with
  | error fault =>
      simp only [hpairs, Except.error.injEq] at h
      exact ⟨fault, by rw [← h, bracketError_eq]⟩
  | ok pairs => simp [hpairs] at h

end

/-- The scanner moves forward within the bytes of the text and cuts them into tokens of
whole characters.  What it leaves to a target to refuse is brackets that do not nest.
A blank token holds blanks and ends where they end, a bracket token is one bracket, and
blanks and brackets are found nowhere else but in literals and comments. -/
theorem scan_tiles (source : String) :
    let bytes := utf8Bytes source.toList
    (ByteScanner.scanFrom bytes 0 = scan source ∧
      ∀ pos b, bytes[pos]? = some b → pos < (ByteScanner.skipToken bytes pos b).2 ∧
        (ByteScanner.skipToken bytes pos b).2 ≤ bytes.length) ∧
    Tiles source 0 (scan source) bytes.length ∧
    (((∃ t, tokenize source = .ok t) ↔ BracketWord ((scan source).map (·.kind))) ∧
      ∀ e, tokenize source = .error e → ∃ fault : BracketFault, e.fault = fault.fault) ∧
    (∀ token ∈ scan source,
      (token.kind = .blank →
        (∀ i, token.Covers i → ∃ b, bytes[i]? = some b ∧ ByteScanner.isBlank b = true) ∧
          ∀ b, bytes[token.span.stop]? = some b → ByteScanner.isBlank b = false) ∧
      ∀ d,
        (token.kind = .opening d → token.span.stop = token.span.start + 1 ∧
          ∃ b, bytes[token.span.start]? = some b ∧ ByteScanner.opening? b = some d) ∧
        (token.kind = .closing d → token.span.stop = token.span.start + 1 ∧
          ∃ b, bytes[token.span.start]? = some b ∧ ByteScanner.closing? b = some d)) ∧
    ∀ i b, bytes[i]? = some b → ∃ token ∈ scan source, token.Covers i ∧
      (ByteScanner.isBlank b = true →
        token.kind = .blank ∨ token.kind = .literal ∨ token.kind = .comment) ∧
      ∀ d,
        (ByteScanner.opening? b = some d →
          token.kind = .literal ∨ token.kind = .comment ∨ token.kind = .opening d) ∧
        (ByteScanner.closing? b = some d →
          token.kind = .literal ∨ token.kind = .comment ∨ token.kind = .closing d) := by
  intro bytes
  have hlength : bytes.length = byteLength source.toList := length_utf8Bytes _
  have htiles := tiles_scan source
  refine ⟨⟨ByteScanner.scanFrom_eq_scan source, fun _ _ => ByteScanner.bounds_skipToken⟩,
    hlength ▸ htiles, ⟨tokenize_ok_iff source, fun _ => fault_of_tokenize⟩,
    fun token htoken => ⟨blank_of_mem_scan htoken,
      fun d => ⟨opening_of_mem_scan htoken, closing_of_mem_scan htoken⟩⟩, ?_⟩
  intro i b hb
  have hi : i < byteLength source.toList := hlength ▸ (List.getElem?_eq_some_iff.mp hb).1
  obtain ⟨token, htoken, hcovers⟩ := htiles.exists_covers (Nat.zero_le i) hi
  obtain ⟨text, back, hstands, hstop, hadmits, _⟩ := exists_text_of_mem_scan htoken
  obtain ⟨c, hc, b', hb', hget⟩ := hstands.exists_char hcovers.1 (hstop ▸ hcovers.2)
  obtain rfl : b' = b := Option.some.inj (hget.symm.trans hb)
  rw [ByteScanner.reflects_isBlank c b' hb', ByteScanner.reflects_opening? c b' hb',
    ByteScanner.reflects_closing? c b' hb']
  exact ⟨token, htoken, hcovers, hadmits.kind_of_blank hc,
    fun d => ⟨hadmits.kind_of_opening hc, hadmits.kind_of_closing hc⟩⟩

end Target

end Stencil
