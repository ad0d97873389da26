import Stencil.Proofs.Target.Scanner
import Stencil.Proofs.Target.Scopes

/-!
# Fragments of a source

A lexeme is read off the text up to its end: what lies behind it may be cut off
anywhere without changing it.  So the text between two tokens, scanned on its
own, gives the tokens that stand there.
-/

namespace Stencil

/-! ## Runs of text that is cut off

The text `cs'` is what is left of `cs`, and the whole run stands in it. -/

theorem head?_of_isPrefix {cs cs' : List Char} (hcut : cs' <+: cs) {c : Char}
    (h : cs'.head? = some c) : cs.head? = some c := by
  obtain ⟨rest, rfl⟩ := List.head?_eq_some_iff.mp h
  obtain ⟨behind, rfl⟩ := hcut
  rfl

theorem takeWhile_of_isPrefix {p : Char → Bool} {cs cs' : List Char}
    (hrun : cs.takeWhile p <+: cs') (hcut : cs' <+: cs) : cs'.takeWhile p = cs.takeWhile p := by
  induction cs' generalizing cs with
  | nil => rw [List.prefix_nil.mp hrun, List.takeWhile_nil]
  | cons c cs' ih =>
      obtain ⟨behind, rfl⟩ := hcut
      rw [List.cons_append] at hrun ⊢
      cases hc : p c with
      | false => simp [hc]
      | true =>
          simp only [List.takeWhile_cons, hc, if_true, List.cons_prefix_cons, true_and] at hrun ⊢
          rw [ih hrun (List.prefix_append _ _)]

theorem quotedRun_cons {quote c : Char} (hc : c ≠ '\\') (cs : List Char) :
    quotedRun quote (c :: cs) =
      if c == '\n' then [] else if c == quote then [c] else c :: quotedRun quote cs := by
  rw [quotedRun.eq_def]
  split <;> simp_all

theorem ne_backslash {c : Char} {cs : List Char} (hone : c = '\\' → cs = [] → False)
    (htwo : ∀ d ds, c = '\\' → cs = d :: ds → False) : c ≠ '\\' := by
  intro hc
  cases cs with
  | nil => exact hone hc rfl
  | cons d ds => exact htwo d ds hc rfl

theorem quotedRun_of_isPrefix {quote : Char} {cs cs' : List Char}
    (hrun : quotedRun quote cs <+: cs') (hcut : cs' <+: cs) :
    quotedRun quote cs' = quotedRun quote cs := by
  fun_induction quotedRun quote cs generalizing cs' with
  | case1 => rw [List.prefix_nil.mp hcut]; rfl
  | case2 => rw [hcut.eq_of_length_le hrun.length_le]; rfl
  | case3 c cs ih =>
      obtain ⟨rest, rfl⟩ := hrun
      simp only [List.cons_append, List.cons_prefix_cons, true_and] at hcut
      simp only [List.cons_append, quotedRun]
      rw [ih (List.prefix_append _ _) hcut]
  | case4 c cs _ _ hnewline =>
      rcases List.prefix_cons_iff.mp hcut with rfl | ⟨rest, rfl, _⟩
      · rfl
      · rw [beq_iff_eq] at hnewline
        subst hnewline
        rw [quotedRun_cons (by decide)]
        rfl
  | case5 c cs hone htwo hnewline hquote =>
      obtain ⟨rest, rfl⟩ := hrun
      rw [List.singleton_append, quotedRun_cons (ne_backslash hone htwo), if_neg hnewline,
        if_pos hquote]
  | case6 c cs hone htwo hnewline hquote ih =>
      obtain ⟨rest, rfl⟩ := hrun
      simp only [List.cons_append, List.cons_prefix_cons, true_and] at hcut
      rw [List.cons_append, quotedRun_cons (ne_backslash hone htwo), if_neg hnewline, if_neg hquote,
        ih (List.prefix_append _ _) hcut]

theorem blockCommentRun_of_isPrefix {cs cs' : List Char}
    (hrun : blockCommentRun cs <+: cs') (hcut : cs' <+: cs) :
    blockCommentRun cs' = blockCommentRun cs := by
  fun_induction blockCommentRun cs generalizing cs' with
  | case1 => rw [List.prefix_nil.mp hcut]; rfl
  | case2 cs =>
      obtain ⟨rest, rfl⟩ := hrun
      rfl
  | case3 c cs hopen ih =>
      obtain ⟨rest, rfl⟩ := hrun
      simp only [List.cons_append, List.cons_prefix_cons, true_and] at hcut
      have hrest := ih (List.prefix_append _ rest) hcut
      rw [List.cons_append, blockCommentRun, hrest]
      rintro tail rfl hslash
      rw [hslash] at hcut
      obtain ⟨behind, rfl⟩ := hcut
      exact hopen _ rfl rfl

theorem rawRun_of_isPrefix {cs cs' : List Char} (hrun : rawRun cs <+: cs') (hcut : cs' <+: cs) :
    rawRun cs' = rawRun cs := by
  induction cs generalizing cs' with
  | nil => rw [List.prefix_nil.mp hcut]
  | cons c cs ih =>
      rw [rawRun] at hrun ⊢
      split at hrun
      · rename_i hquote
        obtain ⟨rest, rfl⟩ := hrun
        rw [List.singleton_append, rawRun, if_pos hquote, if_pos hquote]
      · rename_i hquote
        obtain ⟨rest, rfl⟩ := hrun
        simp only [List.cons_append, List.cons_prefix_cons, true_and] at hcut
        rw [List.cons_append, rawRun, if_neg hquote, if_neg hquote,
          ih (List.prefix_append _ _) hcut]

theorem apostropheRun_of_isPrefix {cs cs' : List Char}
    (hrun : (apostropheRun cs).2 <+: cs') (hcut : cs' <+: cs) :
    apostropheRun cs' = apostropheRun cs := by
  cases cs with
  | nil => rw [List.prefix_nil.mp hcut]
  | cons c cs =>
      rcases List.prefix_cons_iff.mp hcut with rfl | ⟨rest, rfl, hrest⟩
      · -- Nothing is left behind the apostrophe, so there was only a line feed.
        simp only [apostropheRun] at hrun ⊢
        split at hrun
        · simp at hrun
        · split at hrun
          · rename_i hword
            simp only [Bool.and_eq_true] at hword
            simp [hword.2] at hrun
          · rename_i hclosed hword
            have hnil : quotedRun '\'' (c :: cs) = [] := List.prefix_nil.mp hrun
            rw [if_neg hclosed, if_neg hword, hnil]
      · simp only [apostropheRun] at hrun ⊢
        by_cases hclosed : (c != '\\' && cs.head? == some '\'') = true
        · rw [if_pos hclosed] at hrun ⊢
          simp only [List.cons_prefix_cons, true_and] at hrun
          obtain ⟨behind, rfl⟩ := hrun
          simp only [Bool.and_eq_true] at hclosed
          rw [if_pos (by simp [hclosed.1])]
        · have hopen : ¬ (c != '\\' && rest.head? == some '\'') = true := by
            intro h
            simp only [Bool.and_eq_true, beq_iff_eq] at h hclosed
            exact hclosed ⟨h.1, head?_of_isPrefix hrest h.2⟩
          rw [if_neg hclosed] at hrun ⊢
          rw [if_neg hopen]
          split at hrun
          · rename_i hword
            rw [if_pos hword, if_pos hword, takeWhile_of_isPrefix hrun hcut]
          · rename_i hword
            rw [if_neg hword, if_neg hword, quotedRun_of_isPrefix hrun hcut]

/-- The look-ahead of the scanner never reaches behind the lexeme it decides for. -/
theorem lexemeRun_of_isPrefix {c : Char} {cs cs' : List Char}
    (hrun : (lexemeRun c cs).2 <+: cs') (hcut : cs' <+: cs) : lexemeRun c cs' = lexemeRun c cs := by
  -- A look-ahead that fails in the whole text fails in its front.
  have hslash : ∀ {d}, ¬ (c == '/' && cs.head? == some d) = true →
      ¬ (c == '/' && cs'.head? == some d) = true := by
    intro d hno h
    simp only [Bool.and_eq_true, beq_iff_eq] at h hno
    exact hno ⟨h.1, head?_of_isPrefix hcut h.2⟩
  unfold lexemeRun at hrun ⊢
  by_cases hblank : isBlank c = true
  · rw [if_pos hblank] at hrun
    rw [if_pos hblank, if_pos hblank, takeWhile_of_isPrefix hrun hcut]
  rw [if_neg hblank] at hrun
  rw [if_neg hblank, if_neg hblank]
  by_cases hline : (c == '/' && cs.head? == some '/') = true
  · rw [if_pos hline] at hrun
    simp only [Bool.and_eq_true, beq_iff_eq] at hline
    obtain ⟨rest, rfl⟩ := List.head?_eq_some_iff.mp hline.2
    obtain ⟨rest', rfl⟩ : ∃ rest', cs' = '/' :: rest' := by
      obtain ⟨behind, rfl⟩ := hrun
      exact ⟨_, rfl⟩
    rw [if_pos (by simp [hline.1]), if_pos (by simp [hline.1]), takeWhile_of_isPrefix hrun hcut]
  rw [if_neg hline] at hrun
  rw [if_neg hline, if_neg (hslash hline)]
  by_cases hstar : (c == '/' && cs.head? == some '*') = true
  · rw [if_pos hstar] at hrun
    simp only [Bool.and_eq_true, beq_iff_eq] at hstar
    obtain ⟨rest, rfl⟩ := List.head?_eq_some_iff.mp hstar.2
    obtain ⟨rest', rfl⟩ : ∃ rest', cs' = '*' :: rest' := by
      obtain ⟨behind, rfl⟩ := hrun
      exact ⟨_, rfl⟩
    simp only [List.tail_cons, List.cons_prefix_cons, true_and] at hrun hcut
    rw [if_pos (by simp [hstar.1]), if_pos (by simp [hstar.1]), List.tail_cons, List.tail_cons,
      blockCommentRun_of_isPrefix hrun hcut]
  rw [if_neg hstar] at hrun
  rw [if_neg hstar, if_neg (hslash hstar)]
  by_cases hquote : (c == '"') = true
  · rw [if_pos hquote] at hrun
    rw [if_pos hquote, if_pos hquote, quotedRun_of_isPrefix hrun hcut]
  rw [if_neg hquote] at hrun
  rw [if_neg hquote, if_neg hquote]
  by_cases hapostrophe : (c == '\'') = true
  · rw [if_pos hapostrophe] at hrun
    rw [if_pos hapostrophe, if_pos hapostrophe, apostropheRun_of_isPrefix hrun hcut]
  rw [if_neg hapostrophe] at hrun
  rw [if_neg hapostrophe, if_neg hapostrophe]
  by_cases hraw : (c == '\x60') = true
  · rw [if_pos hraw] at hrun
    rw [if_pos hraw, if_pos hraw, rawRun_of_isPrefix hrun hcut]
  rw [if_neg hraw] at hrun
  rw [if_neg hraw, if_neg hraw]
  by_cases hword : isWordChar c = true
  · rw [if_pos hword] at hrun
    rw [if_pos hword, if_pos hword, takeWhile_of_isPrefix hrun hcut]
  · rw [if_neg hword, if_neg hword]

/-! ## Scanning a fragment -/

theorem lexemes_cons (c : Char) (cs : List Char) :
    lexemes (c :: cs) =
      ⟨(lexemeRun c cs).1, c :: (lexemeRun c cs).2⟩ ::
        lexemes (cs.drop (lexemeRun c cs).2.length) := by
  rw [lexemes]

theorem lexemes_joined_of_append {cs : List Char} {ls ls' : List Lexeme}
    (h : lexemes cs = ls ++ ls') : lexemes (joined ls') = ls' := by
  induction ls generalizing cs with
  | nil =>
      rw [List.nil_append] at h
      rw [← h, joined_lexemes]
  | cons l ls ih =>
      cases cs with
      | nil => simp [lexemes] at h
      | cons c cs =>
          rw [lexemes_cons, List.cons_append, List.cons.injEq] at h
          exact ih h.2

theorem lexemes_joined_of_take {ls ls' : List Lexeme}
    (h : lexemes (joined (ls ++ ls')) = ls ++ ls') : lexemes (joined ls) = ls := by
  induction ls with
  | nil => simp [lexemes]
  | cons l ls ih =>
      have hone : lexemes (joined (l :: ls ++ ls')) = [l] ++ (ls ++ ls') := h
      have hls := ih (lexemes_joined_of_append hone)
      have htext : l.text ≠ [] :=
        text_ne_nil_of_mem_lexemes (joined (l :: ls ++ ls')) l (by rw [h]; simp)
      obtain ⟨c, run, hl⟩ := List.exists_cons_of_ne_nil htext
      have hwhole : joined (l :: ls ++ ls') = c :: (run ++ joined (ls ++ ls')) := by
        rw [List.cons_append, joined_cons, hl, List.cons_append]
      rw [hwhole, lexemes_cons, List.cons_append, List.cons.injEq] at h
      have hkind := congrArg Lexeme.kind h.1
      have hrun : (lexemeRun c (run ++ joined (ls ++ ls'))).2 = run := by
        simpa [hl] using congrArg Lexeme.text h.1
      have hsame : lexemeRun c (run ++ joined ls) = lexemeRun c (run ++ joined (ls ++ ls')) := by
        apply lexemeRun_of_isPrefix
        · rw [hrun]
          exact List.prefix_append _ _
        · rw [joined_append, ← List.append_assoc]
          exact List.prefix_append _ _
      rw [joined_cons, hl, List.cons_append, lexemes_cons, hsame, hrun, List.drop_left, hls]
      congr 1
      cases l
      simp_all

theorem lexemes_joined_of_infix {cs : List Char} {ls : List Lexeme} (h : ls <:+: lexemes cs) :
    lexemes (joined ls) = ls := by
  obtain ⟨before, after, h⟩ := h
  rw [List.append_assoc] at h
  exact lexemes_joined_of_take (lexemes_joined_of_append h.symm)

namespace Target

variable {source : String} {t : Target}

def between (t : Target) (i j : Nat) : List Lexeme := (t.lexemes.toList.drop i).take (j - i)

theorem between_isInfix (t : Target) (i j : Nat) : t.between i j <:+: t.lexemes.toList :=
  (List.take_prefix _ _).isInfix.trans (List.drop_suffix _ _).isInfix

theorem lexemes_text (ht : tokenize source = .ok t) (i j : Nat) :
    Stencil.lexemes (t.text i j) = t.between i j := by
  have hpart : t.between i j <:+: Stencil.lexemes source.toList := by
    rw [← lexemes_of_tokenize ht]
    exact t.between_isInfix i j
  rw [(tiled_of_ofTokens? ht).text_eq, ← between, lexemes_joined_of_infix hpart]

theorem between_congr (ht : tokenize source = .ok t) {i j i' j' : Nat}
    (h : t.text i j = t.text i' j') : t.between i j = t.between i' j' := by
  rw [← lexemes_text ht, h, lexemes_text ht]

/-! ## Tokens of a fragment -/

def tokens (t : Target) : List Token := t.kinds.mapIdx fun i kind => ⟨kind, t.span i (i + 1)⟩

def Token.within (token : Token) (s : Span) : Bool :=
  s.start ≤ token.span.start && token.span.stop ≤ s.stop

def Token.shiftBack (n : Nat) (token : Token) : Token :=
  ⟨token.kind, ⟨token.span.start - n, token.span.stop - n⟩⟩

theorem Token.within_iff {token : Token} {s : Span} :
    token.within s = true ↔ s.start ≤ token.span.start ∧ token.span.stop ≤ s.stop := by
  simp [Token.within]

theorem place_append (start : Nat) (ls ls' : List Lexeme) :
    place start (ls ++ ls') = place start ls ++ place (start + byteLength (joined ls)) ls' := by
  induction ls generalizing start with
  | nil => simp [place]
  | cons l ls ih => simp [place, ih, Nat.add_assoc]

theorem bounds_of_mem_place {ls : List Lexeme} (htext : ∀ l ∈ ls, l.text ≠ []) {start : Nat}
    {token : Token} (h : token ∈ place start ls) :
    start ≤ token.span.start ∧ token.span.start < token.span.stop ∧
      token.span.stop ≤ start + byteLength (joined ls) := by
  induction ls generalizing start with
  | nil => simp [place] at h
  | cons l ls ih =>
      have hpos := byteLength_pos (htext l (by simp))
      rw [joined_cons, byteLength_append]
      rcases List.mem_cons.mp h with rfl | h
      · dsimp only
        omega
      · have := ih (fun l' hl' => htext l' (by simp [hl'])) h
        omega

theorem map_shiftBack_place (n start : Nat) (ls : List Lexeme) :
    (place (n + start) ls).map (Token.shiftBack n) = place start ls := by
  induction ls generalizing start with
  | nil => rfl
  | cons l ls ih =>
      rw [place, place, List.map_cons, Nat.add_assoc, ih, Token.shiftBack,
        Nat.add_sub_cancel_left, Nat.add_sub_cancel_left]

private theorem getElem?_place (start : Nat) (ls : List Lexeme) (i : Nat) :
    (place start ls)[i]? = ls[i]?.map fun l =>
      ⟨l.kind, ⟨start + byteLength (joined (ls.take i)),
        start + byteLength (joined (ls.take (i + 1)))⟩⟩ := by
  induction ls generalizing start i with
  | nil => simp [place]
  | cons l ls ih => cases i <;> simp [place, ih, Nat.add_assoc]

theorem tokens_eq_place (hT : t.Tiled) : t.tokens = place 0 t.lexemes.toList := by
  apply List.ext_getElem?
  intro i
  rw [tokens, List.getElem?_mapIdx, kinds, List.getElem?_map, getElem?_place, Option.map_map,
    span, hT.offset_eq, hT.offset_eq, Nat.zero_add, Nat.zero_add]
  rfl

theorem filter_within (hT : t.Tiled) {i j : Nat} (hij : i ≤ j) :
    t.tokens.filter (·.within (t.span i j)) = place (t.offset i) (t.between i j) := by
  have hsplit : t.lexemes.toList =
      t.lexemes.toList.take i ++ (t.between i j ++ t.lexemes.toList.drop j) := by
    have hdrop : t.lexemes.toList.drop j = (t.lexemes.toList.drop i).drop (j - i) := by
      rw [List.drop_drop, Nat.add_sub_cancel' hij]
    rw [hdrop, between, List.take_append_drop, List.take_append_drop]
  have hstop : t.offset j = t.offset i + byteLength (joined (t.between i j)) := by
    rw [hT.offset_eq_add hij, hT.text_eq, between]
  have hbounds : ∀ (start : Nat) {ls : List Lexeme}, ls <:+: t.lexemes.toList →
      ∀ token ∈ place start ls, start ≤ token.span.start ∧ token.span.start < token.span.stop ∧
        token.span.stop ≤ start + byteLength (joined ls) :=
    fun _ _ hls _ htoken =>
      bounds_of_mem_place (fun l hl => hT.text_ne_nil l (hls.subset hl)) htoken
  have hfront := hbounds 0 (List.take_prefix i t.lexemes.toList).isInfix
  have hmiddle := hbounds (t.offset i) (t.between_isInfix i j)
  have hback := hbounds (t.offset j) (List.drop_suffix j t.lexemes.toList).isInfix
  rw [tokens_eq_place hT, hsplit, place_append, place_append, Nat.zero_add, ← hT.offset_eq,
    ← hstop, List.filter_append, List.filter_append, List.filter_eq_nil_iff.mpr,
    List.filter_eq_self.mpr, List.filter_eq_nil_iff.mpr, List.nil_append, List.append_nil]
  · intro token htoken
    have := hback token htoken
    rw [Token.within_iff]
    dsimp only [span]
    omega
  · intro token htoken
    have := hmiddle token htoken
    rw [Token.within_iff]
    dsimp only [span]
    omega
  · intro token htoken
    have := hfront token htoken
    rw [← hT.offset_eq] at this
    rw [Token.within_iff]
    dsimp only [span]
    omega

/-- A balanced stretch of tokens is a target of its own. -/
theorem tokenize_text (ht : tokenize source = .ok t) {i j : Nat} (hij : i ≤ j) (hj : j ≤ t.size)
    (hbalanced : Balanced t.kinds i j) :
    ∃ t', tokenize (String.ofList (t.text i j)) = .ok t' ∧
      t'.tokens = (t.tokens.filter (·.within (t.span i j))).map (.shiftBack (t.offset i)) := by
  have hT : t.Tiled := tiled_of_ofTokens? ht
  have hN : t.Nested := nested_of_ofTokens? ht
  have hclosing : ∀ c d, t.kinds[c]? = some (.closing d) → ∃ o, Closes t.kinds o c :=
    fun c d hc => ⟨_, hN.partner_closer ((t.kind?_eq c).trans hc)⟩
  obtain ⟨pairs, hpairs⟩ := hbalanced.bracketPairs hclosing hij (by rwa [length_kinds])
  rw [kinds, ← List.map_drop, ← List.map_take, ← between] at hpairs
  obtain ⟨t', ht'⟩ : ∃ t', tokenize (String.ofList (t.text i j)) = .ok t' := by
    rw [tokenize_eq, String.toList_ofList, lexemes_text ht, ofLexemes?, hpairs]
    exact ⟨_, rfl⟩
  refine ⟨t', ht', ?_⟩
  rw [tokens_eq_place (tiled_of_ofTokens? ht'), lexemes_of_tokenize ht', String.toList_ofList,
    lexemes_text ht, filter_within hT hij]
  exact (map_shiftBack_place (t.offset i) 0 _).symm

end Target

end Stencil
