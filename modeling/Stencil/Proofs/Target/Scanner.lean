import Stencil.Proofs.Target.Tiling

/-!
# The scanner

The lexemes of a text make up the text, so a target is cut from the source just
as the scanner has cut it.  A lexeme that is a bracket consists of that bracket.
-/

namespace Stencil

/-! ## Runs -/

theorem quotedRun_isPrefix (quote : Char) (cs : List Char) : quotedRun quote cs <+: cs := by
  fun_induction quotedRun quote cs with
  | case1 => exact List.prefix_refl _
  | case2 => exact List.prefix_refl _
  | case3 c cs ih => simpa using ih
  | case4 => exact List.nil_prefix
  | case5 => simp
  | case6 _ _ _ _ _ _ ih => simpa using ih

theorem blockCommentRun_isPrefix (cs : List Char) : blockCommentRun cs <+: cs := by
  fun_induction blockCommentRun cs with
  | case1 => exact List.prefix_refl _
  | case2 => simp
  | case3 c cs _ ih => simpa using ih

theorem rawRun_isPrefix (cs : List Char) : rawRun cs <+: cs := by
  induction cs with
  | nil => exact List.prefix_refl _
  | cons c cs ih =>
      rw [rawRun]
      split
      · simp
      · simpa using ih

theorem apostropheRun_isPrefix (cs : List Char) : (apostropheRun cs).2 <+: cs := by
  unfold apostropheRun
  split
  · exact List.prefix_refl _
  · split
    · rename_i c cs hclosed
      simp only [Bool.and_eq_true, beq_iff_eq] at hclosed
      obtain ⟨rest, rfl⟩ := List.head?_eq_some_iff.mp hclosed.2
      simp
    · split
      · exact List.takeWhile_prefix _
      · exact quotedRun_isPrefix _ _

theorem lexemeRun_isPrefix (c : Char) (cs : List Char) : (lexemeRun c cs).2 <+: cs := by
  unfold lexemeRun
  split
  · exact List.takeWhile_prefix _
  · split
    · exact List.takeWhile_prefix _
    · split
      · rename_i hstar
        simp only [Bool.and_eq_true, beq_iff_eq] at hstar
        obtain ⟨rest, rfl⟩ := List.head?_eq_some_iff.mp hstar.2
        simpa using blockCommentRun_isPrefix rest
      · split
        · exact quotedRun_isPrefix _ _
        · split
          · exact apostropheRun_isPrefix _
          · split
            · exact rawRun_isPrefix _
            · split
              · exact List.takeWhile_prefix _
              · split <;> exact List.nil_prefix

theorem joined_lexemes (cs : List Char) : joined (lexemes cs) = cs := by
  fun_induction lexemes cs with
  | case1 => rfl
  | case2 c cs run ih =>
      have htake : run.2 = cs.take run.2.length :=
        List.prefix_iff_eq_take.mp (lexemeRun_isPrefix c cs)
      rw [joined_cons, ih, List.cons_append]
      congr 1
      calc
        run.2 ++ cs.drop run.2.length = cs.take run.2.length ++ cs.drop run.2.length := by
          rw [← htake]
        _ = cs := List.take_append_drop _ _

theorem text_ne_nil_of_mem_lexemes (cs : List Char) : ∀ l ∈ lexemes cs, l.text ≠ [] := by
  fun_induction lexemes cs with
  | case1 => simp
  | case2 c cs run ih => simpa using ih

/-! ## Brackets -/

theorem apostropheRun_kind (cs : List Char) :
    (apostropheRun cs).1 = .literal ∨ (apostropheRun cs).1 = .word := by
  unfold apostropheRun
  split
  · simp
  · split
    · simp
    · split <;> simp

theorem bracket_of_lexemeRun (c : Char) (cs : List Char) :
    (∀ d, (lexemeRun c cs).1 = .opening d →
        (lexemeRun c cs).2 = [] ∧ Delimiter.ofOpening? c = some d) ∧
      ∀ d, (lexemeRun c cs).1 = .closing d →
        (lexemeRun c cs).2 = [] ∧ Delimiter.ofClosing? c = some d := by
  unfold lexemeRun
  split
  · simp
  · split
    · simp
    · split
      · simp
      · split
        · simp
        · split
          · rcases apostropheRun_kind cs with hkind | hkind <;> simp [hkind]
          · split
            · simp
            · split
              · simp
              · split <;> simp_all

theorem bracket_of_mem_lexemes (cs : List Char) {l : Lexeme} (hl : l ∈ lexemes cs) :
    (∀ d, l.kind = .opening d → ∃ c, l.text = [c] ∧ Delimiter.ofOpening? c = some d) ∧
      ∀ d, l.kind = .closing d → ∃ c, l.text = [c] ∧ Delimiter.ofClosing? c = some d := by
  fun_induction lexemes cs with
  | case1 => simp at hl
  | case2 c cs run ih =>
      rcases List.mem_cons.mp hl with rfl | hl
      · obtain ⟨hopening, hclosing⟩ := bracket_of_lexemeRun c cs
        constructor
        · intro d hd
          exact ⟨c, by rw [(hopening d hd).1], (hopening d hd).2⟩
        · intro d hd
          exact ⟨c, by rw [(hclosing d hd).1], (hclosing d hd).2⟩
      · exact ih hl

theorem eq_of_ofOpening?_brace {c : Char} (h : Delimiter.ofOpening? c = some .brace) :
    c = '\x7b' := by
  unfold Delimiter.ofOpening? at h
  split at h <;> simp_all

theorem eq_of_ofClosing?_brace {c : Char} (h : Delimiter.ofClosing? c = some .brace) :
    c = '\x7d' := by
  unfold Delimiter.ofClosing? at h
  split at h <;> simp_all

namespace Target

/-! ## Scanned targets -/

private theorem cut_place {ls : List Lexeme} (htext : ∀ l ∈ ls, l.text ≠ []) (start : Nat) :
    cut (start + byteLength (joined ls)) start (joined ls) (place start ls) = .ok ls := by
  induction ls generalizing start with
  | nil => simp [cut, place]
  | cons l ls ih =>
      have hpos := byteLength_pos (htext l (by simp))
      have hrest := ih (fun l' hl' => htext l' (by simp [hl'])) (start + byteLength l.text)
      have hsplit : splitBytes? (byteLength l.text) (l.text ++ joined ls) =
          some (l.text, joined ls) := splitBytes?_eq_some_iff.mpr ⟨rfl, rfl⟩
      simp only [place, cut, joined_cons, byteLength_append, ne_eq, not_true_eq_false, if_false]
      rw [if_neg (by omega), Nat.add_sub_cancel_left, hsplit, ← Nat.add_assoc]
      simp [hrest, Except.map]

theorem tokenize_eq (source : String) :
    tokenize source = ofLexemes? source (Stencil.lexemes source.toList) := by
  have hcut := cut_place (text_ne_nil_of_mem_lexemes source.toList) 0
  rw [joined_lexemes, Nat.zero_add] at hcut
  simp only [tokenize, ofTokens?, scan, hcut]

theorem lexemes_of_tokenize {source : String} {t : Target} (h : tokenize source = .ok t) :
    t.lexemes.toList = Stencil.lexemes source.toList := by
  rw [tokenize_eq] at h
  obtain ⟨_, _, rfl⟩ := ofLexemes?_eq_ok h
  simp

theorem exists_lexeme_of_kind? {source : String} {t : Target} (h : tokenize source = .ok t)
    {i : Nat} {k : LexemeKind} (hi : t.kind? i = some k) :
    ∃ l ∈ Stencil.lexemes source.toList, l.kind = k ∧ t.text i (i + 1) = l.text := by
  obtain ⟨l, hl, hkind⟩ := Option.map_eq_some_iff.mp hi
  refine ⟨l, ?_, hkind, (tiled_of_ofTokens? h).text_succ hl⟩
  rw [← lexemes_of_tokenize h]
  exact Array.mem_def.mp (Array.mem_of_getElem? hl)

theorem text_of_opening_brace {source : String} {t : Target} (h : tokenize source = .ok t)
    {i : Nat} (hi : t.kind? i = some (.opening .brace)) : t.text i (i + 1) = ['\x7b'] := by
  obtain ⟨l, hl, hkind, htext⟩ := exists_lexeme_of_kind? h hi
  obtain ⟨c, hc, hbrace⟩ := (bracket_of_mem_lexemes _ hl).1 _ hkind
  rw [htext, hc, eq_of_ofOpening?_brace hbrace]

theorem text_of_closing_brace {source : String} {t : Target} (h : tokenize source = .ok t)
    {i : Nat} (hi : t.kind? i = some (.closing .brace)) : t.text i (i + 1) = ['\x7d'] := by
  obtain ⟨l, hl, hkind, htext⟩ := exists_lexeme_of_kind? h hi
  obtain ⟨c, hc, hbrace⟩ := (bracket_of_mem_lexemes _ hl).2 _ hkind
  rw [htext, hc, eq_of_ofClosing?_brace hbrace]

end Target

end Stencil
