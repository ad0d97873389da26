import Stencil.Proofs.Text.Cuts
import Stencil.Target.Basic

/-!
# Tiling

The tokens of an accepted target cover its source without gaps.  Offsets grow
from token to token, and the text between two tokens is that of the lexemes
between them.
-/

namespace Stencil

def joined (ls : List Lexeme) : List Char := ls.flatMap (·.text)

@[simp] theorem joined_nil : joined [] = [] := rfl

@[simp] theorem joined_cons (l : Lexeme) (ls : List Lexeme) :
    joined (l :: ls) = l.text ++ joined ls := List.flatMap_cons

@[simp] theorem joined_append (ls ls' : List Lexeme) :
    joined (ls ++ ls') = joined ls ++ joined ls' := List.flatMap_append

theorem joined_ne_nil {ls : List Lexeme} (hne : ls ≠ []) (htext : ∀ l ∈ ls, l.text ≠ []) :
    joined ls ≠ [] := by
  cases ls with
  | nil => contradiction
  | cons l ls => simp [htext l (by simp)]

namespace Target

/-! ## Tables -/

private theorem getElem?_startsFrom (start : Nat) (ls : List Lexeme) {i : Nat}
    (hi : i ≤ ls.length) :
    (startsFrom start ls)[i]? = some (start + byteLength (joined (ls.take i))) := by
  induction ls generalizing start i with
  | nil =>
      have hzero : i = 0 := by simpa using hi
      subst hzero
      simp [startsFrom]
  | cons l ls ih =>
      cases i with
      | zero => simp [startsFrom]
      | succ i =>
          simp only [startsFrom, List.getElem?_cons_succ]
          rw [ih _ (by simpa using hi)]
          simp [Nat.add_assoc]

private theorem length_startsFrom (start : Nat) (ls : List Lexeme) :
    (startsFrom start ls).length = ls.length + 1 := by
  induction ls generalizing start with
  | nil => rfl
  | cons l ls ih => simp [startsFrom, ih]

private theorem headD_suffixTexts (ls : List Lexeme) : (suffixTexts ls).headD [] = joined ls := by
  cases ls with
  | nil => rfl
  | cons l ls =>
      simp only [suffixTexts, List.headD_cons, joined_cons]
      rw [headD_suffixTexts ls]

private theorem getElem?_suffixTexts (ls : List Lexeme) (i : Nat) :
    (suffixTexts ls)[i]?.getD [] = joined (ls.drop i) := by
  induction ls generalizing i with
  | nil => cases i <;> simp [suffixTexts]
  | cons l ls ih =>
      cases i with
      | zero =>
          simp only [suffixTexts, List.getElem?_cons_zero, Option.getD_some, List.drop_zero,
            joined_cons]
          rw [headD_suffixTexts]
      | succ i =>
          simp only [suffixTexts, List.getElem?_cons_succ, List.drop_succ_cons]
          exact ih i

/-! ## Tiled targets -/

/-- The lexemes of a target make up its source, none of them is empty, and the
tables of offsets and texts are theirs. -/
structure Tiled (t : Target) : Prop where
  source_eq : t.source.toList = joined t.lexemes.toList
  text_ne_nil : ∀ l ∈ t.lexemes.toList, l.text ≠ []
  offsets_eq : t.offsets = (startsFrom 0 t.lexemes.toList).toArray
  unread_eq : t.unread = (suffixTexts t.lexemes.toList).toArray

theorem cut_eq_ok {length start : Nat} {cs : List Char} {tokens : List Token}
    {ls : List Lexeme} (h : cut length start cs tokens = .ok ls)
    (hlength : start + byteLength cs = length) :
    joined ls = cs ∧ ∀ l ∈ ls, l.text ≠ [] := by
  induction tokens generalizing start cs ls with
  | nil =>
      simp only [cut] at h
      split at h
      · rename_i hstart
        have hnil : cs = [] := eq_nil_of_byteLength (by omega)
        subst hnil
        simp only [Except.ok.injEq] at h
        subst h
        simp
      · simp at h
  | cons token tokens ih =>
      simp only [cut] at h
      split at h
      · simp at h
      · split at h
        · simp at h
        · rename_i hbounds
          split at h
          · simp at h
          · rename_i text rest hsplit
            obtain ⟨rfl, hlen⟩ := splitBytes?_eq_some_iff.mp hsplit
            cases hrest : cut length token.span.stop rest tokens with
            | error e => simp [hrest, Except.map] at h
            | ok ls' =>
                simp only [hrest, Except.map, Except.ok.injEq] at h
                subst h
                simp only [byteLength_append] at hlength
                obtain ⟨hjoined, htext⟩ := ih hrest (by omega)
                refine ⟨by simp [hjoined], ?_⟩
                intro l hl
                rcases List.mem_cons.mp hl with rfl | hl
                · rintro rfl
                  simp only [byteLength_nil] at hlen
                  omega
                · exact htext l hl

theorem ofLexemes?_eq_ok {source : String} {ls : List Lexeme} {t : Target}
    (h : ofLexemes? source ls = .ok t) :
    ∃ pairs, bracketPairs 0 [] (ls.map (·.kind)) = .ok pairs ∧
      t = {
        source
        lexemes := ls.toArray
        offsets := (startsFrom 0 ls).toArray
        unread := (suffixTexts ls).toArray
        partners := partnerTable ls.length pairs
        scopes := (scopeEnds ls.length (fun i => (partnerTable ls.length pairs).getD i 0) 0 []
          (ls.map (·.kind))).toArray } := by
  simp only [ofLexemes?] at h
  split at h
  · simp at h
  · rename_i pairs hpairs
    simp only [Except.ok.injEq] at h
    exact ⟨pairs, hpairs, h.symm⟩

theorem exists_lexemes_of_ofTokens? {source : String} {tokens : List Token} {t : Target}
    (h : ofTokens? source tokens = .ok t) :
    ∃ ls, joined ls = source.toList ∧ (∀ l ∈ ls, l.text ≠ []) ∧ ofLexemes? source ls = .ok t := by
  simp only [ofTokens?] at h
  split at h
  · simp at h
  · rename_i ls hcut
    obtain ⟨hjoined, htext⟩ := cut_eq_ok hcut (by omega)
    exact ⟨ls, hjoined, htext, h⟩

theorem tiled_of_ofTokens? {source : String} {tokens : List Token} {t : Target}
    (h : ofTokens? source tokens = .ok t) : t.Tiled := by
  obtain ⟨ls, hjoined, htext, hls⟩ := exists_lexemes_of_ofTokens? h
  obtain ⟨pairs, _, rfl⟩ := ofLexemes?_eq_ok hls
  exact ⟨by simp [hjoined], by simpa using htext, by simp, by simp⟩

theorem source_of_ofTokens? {source : String} {tokens : List Token} {t : Target}
    (h : ofTokens? source tokens = .ok t) : t.source = source := by
  obtain ⟨ls, _, _, hls⟩ := exists_lexemes_of_ofTokens? h
  obtain ⟨_, _, rfl⟩ := ofLexemes?_eq_ok hls
  rfl

/-! ## Offsets and texts -/

theorem kind?_lt {t : Target} {i : Nat} {k : LexemeKind} (h : t.kind? i = some k) :
    i < t.size := by
  refine Nat.lt_of_not_le fun hi => ?_
  have hnone : t.lexemes[i]? = none := Array.getElem?_eq_none hi
  simp [kind?, hnone] at h

namespace Tiled

variable {t : Target}

theorem offset_eq (h : t.Tiled) (i : Nat) :
    t.offset i = byteLength (joined (t.lexemes.toList.take i)) := by
  have hlength : t.lexemes.toList.length = t.size := by simp [size]
  have hlast : t.offsets.getD t.size 0 = byteLength (joined t.lexemes.toList) := by
    have hget := getElem?_startsFrom 0 t.lexemes.toList (Nat.le_refl _)
    rw [List.take_length, hlength] at hget
    rw [h.offsets_eq, Array.getD_eq_getD_getElem?, List.getElem?_toArray, hget]
    simp
  by_cases hi : i ≤ t.size
  · have := getElem?_startsFrom 0 t.lexemes.toList (i := i) (by omega)
    simp [offset, h.offsets_eq, this]
  · have hnone : (startsFrom 0 t.lexemes.toList)[i]? = none :=
      List.getElem?_eq_none (by rw [length_startsFrom]; omega)
    rw [offset, hlast, h.offsets_eq, List.take_of_length_le (by omega)]
    simp [hnone]

theorem unread_getD (h : t.Tiled) (i : Nat) :
    t.unread.getD i [] = joined (t.lexemes.toList.drop i) := by
  simpa [h.unread_eq] using getElem?_suffixTexts t.lexemes.toList i

private theorem offset_le_add (h : t.Tiled) (i n : Nat) :
    t.offset (i + n) =
      t.offset i + byteLength (joined ((t.lexemes.toList.drop i).take n)) := by
  rw [h.offset_eq, h.offset_eq, List.take_add, joined_append, byteLength_append]

theorem text_eq (h : t.Tiled) (i j : Nat) :
    t.text i j = joined ((t.lexemes.toList.drop i).take (j - i)) := by
  rw [text, h.unread_getD]
  by_cases hij : i ≤ j
  · have hoffset := h.offset_le_add i (j - i)
    rw [Nat.add_sub_cancel' hij] at hoffset
    have hsplit : joined (t.lexemes.toList.drop i) =
        joined ((t.lexemes.toList.drop i).take (j - i)) ++
          joined ((t.lexemes.toList.drop i).drop (j - i)) := by
      rw [← joined_append, List.take_append_drop]
    rw [hoffset, Nat.add_sub_cancel_left, hsplit, takeBytes_append]
  · have hback := h.offset_le_add j (i - j)
    rw [Nat.add_sub_cancel' (by omega)] at hback
    rw [show t.offset j - t.offset i = 0 by omega, show j - i = 0 by omega, takeBytes_zero]
    simp

theorem unread_append (h : t.Tiled) {i j : Nat} (hij : i ≤ j) :
    t.unread.getD i [] = t.text i j ++ t.unread.getD j [] := by
  rw [h.unread_getD, h.unread_getD, h.text_eq, ← joined_append]
  congr 1
  rw [show t.lexemes.toList.drop j = (t.lexemes.toList.drop i).drop (j - i) by
    rw [List.drop_drop, Nat.add_sub_cancel' hij], List.take_append_drop]

theorem offset_eq_add (h : t.Tiled) {i j : Nat} (hij : i ≤ j) :
    t.offset j = t.offset i + byteLength (t.text i j) := by
  have := h.offset_le_add i (j - i)
  rwa [Nat.add_sub_cancel' hij, ← h.text_eq] at this

theorem offset_mono (h : t.Tiled) {i j : Nat} (hij : i ≤ j) : t.offset i ≤ t.offset j := by
  have := h.offset_eq_add hij
  omega

theorem text_append (h : t.Tiled) {i j k : Nat} (hij : i ≤ j) (hjk : j ≤ k) :
    t.text i k = t.text i j ++ t.text j k := by
  simp only [h.text_eq]
  rw [show k - i = (j - i) + (k - j) by omega, List.take_add, joined_append, List.drop_drop,
    show i + (j - i) = j by omega]

@[simp] theorem text_self (h : t.Tiled) (i : Nat) : t.text i i = [] := by
  simp [h.text_eq]

theorem text_succ (h : t.Tiled) {i : Nat} {l : Lexeme} (hl : t.lexemes[i]? = some l) :
    t.text i (i + 1) = l.text := by
  have hi : i < t.lexemes.toList.length := by
    obtain ⟨hi, _⟩ := Array.getElem?_eq_some_iff.mp hl
    simpa using hi
  have hget : t.lexemes.toList[i] = l := by
    obtain ⟨_, hget⟩ := Array.getElem?_eq_some_iff.mp hl
    simpa using hget
  rw [h.text_eq, Nat.add_sub_cancel_left, List.drop_eq_getElem_cons hi, hget]
  simp

theorem text_ne_nil_of_lt (h : t.Tiled) {i j : Nat} (hij : i < j) (hi : i < t.size) :
    t.text i j ≠ [] := by
  rw [h.text_eq]
  apply joined_ne_nil
  · have hlength : t.lexemes.toList.length = t.size := by simp [size]
    rw [← List.length_pos_iff]
    simp only [List.length_take, List.length_drop]
    omega
  · intro l hl
    exact h.text_ne_nil l (List.mem_of_mem_drop (List.mem_of_mem_take hl))

theorem offset_lt (h : t.Tiled) {i j : Nat} (hij : i < j) (hi : i < t.size) :
    t.offset i < t.offset j := by
  have heq := h.offset_eq_add (Nat.le_of_lt hij)
  have hpos := byteLength_pos (h.text_ne_nil_of_lt hij hi)
  omega

theorem le_of_offset_le (h : t.Tiled) {i j : Nat} (hi : i ≤ t.size)
    (hle : t.offset i ≤ t.offset j) : i ≤ j := by
  refine Nat.le_of_not_lt fun hlt => ?_
  have := h.offset_lt hlt (by omega)
  omega

theorem offset_inj (h : t.Tiled) {i j : Nat} (hi : i ≤ t.size) (hj : j ≤ t.size)
    (heq : t.offset i = t.offset j) : i = j := by
  rcases Nat.lt_trichotomy i j with hlt | rfl | hlt
  · have := h.offset_lt hlt (by omega)
    omega
  · rfl
  · have := h.offset_lt hlt (by omega)
    omega

theorem source_eq_text (h : t.Tiled) : t.source.toList = t.text 0 t.size := by
  rw [h.source_eq, h.text_eq, List.drop_zero, Nat.sub_zero, List.take_of_length_le]
  simp [size]

@[simp] theorem offset_zero (h : t.Tiled) : t.offset 0 = 0 := by
  simp [h.offset_eq]

theorem offset_eq_byteLength (h : t.Tiled) (i : Nat) : t.offset i = byteLength (t.text 0 i) := by
  rw [h.offset_eq_add (Nat.zero_le i), h.offset_zero, Nat.zero_add]

theorem source_eq_append (h : t.Tiled) {i j : Nat} (hij : i ≤ j) :
    t.source.toList = t.text 0 i ++ (t.text i j ++ t.unread.getD j []) := by
  rw [← h.unread_append hij, ← h.unread_append (Nat.zero_le i), h.unread_getD, h.source_eq,
    List.drop_zero]

theorem sliceBytes_source (h : t.Tiled) {i j : Nat} (hij : i ≤ j) (hj : j ≤ t.size) :
    sliceBytes (t.offset i) (t.offset j) t.source.toList = t.text i j := by
  rw [h.source_eq_text, h.text_append (Nat.zero_le i) (Nat.le_trans hij hj),
    h.text_append hij hj, h.offset_eq_add hij, h.offset_eq_byteLength i, sliceBytes_append]

end Tiled

end Target

end Stencil
