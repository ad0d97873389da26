import Mathlib.Order.Bounds.Basic
import Stencil.Proofs.Match.Reading
import Stencil.Proofs.Target.Fragment
import Stencil.Proofs.Text.Collapse

/-!
# Ends of a text

In a scanned source a text goes on for as long as the source looks like it, up to layout.
A run of blanks is taken whole; should that lead beyond a token at which the text could
end, then only over the one token of blanks that follows.
-/

namespace Stencil

/-! ## Texts that look the same -/

theorem beginsPlain_iff_collapse {cs : List Char} :
    BeginsPlain cs ↔ (collapse cs).head? ≠ some ' ' := by
  rw [head?_collapse]
  cases cs with
  | nil => simp [BeginsPlain]
  | cons c cs =>
      cases hc : isBlank c with
      | true => simp [BeginsPlain, hc]
      | false =>
          have hspace : c ≠ ' ' := by
            rintro rfl
            exact absurd hc (by decide)
          simp [BeginsPlain, hc, hspace]

theorem Reads.collapse_eq {content taken rest : List Char} (h : Reads content taken rest) :
    collapse content = collapse taken := by
  induction h with
  | nil => rfl
  | plain hc _ ih => rw [collapse_cons_plain hc, collapse_cons_plain hc, ih]
  | blanks hc hblanks hplain _ ih =>
      rw [collapse_cons_blank hc, collapseFrom_true_eq, collapse_blanks_append hblanks,
        hplain.of_append.dropWhile_eq, ih]

theorem endsInRun_dropWhile (cs : List Char) :
    endsInRun true (cs.dropWhile isBlank) = endsInRun true cs := by
  induction cs with
  | nil => rfl
  | cons c cs ih =>
      cases hc : isBlank c with
      | true => simpa [hc, endsInRun] using ih
      | false => simp [hc]

theorem endsInRun_of_false {cs : List Char} (h : endsInRun false cs = true) :
    endsInRun true cs = true := by
  cases cs with
  | nil => simp [endsInRun] at h
  | cons c cs => exact h

/-- A text is read where it looks the same, unless a run of blanks at its end goes on. -/
theorem reads_of_collapse_eq {content taken rest : List Char}
    (h : collapse taken = collapse content)
    (hend : endsInRun false content = true → BeginsPlain rest) : Reads content taken rest := by
  induction content using blankRuns_induction generalizing taken with
  | nil =>
      have hnil : taken = [] := collapse_eq_nil_iff.mp h
      exact hnil ▸ .nil rest
  | plain c cs hc ih =>
      rw [collapse_cons_plain hc] at h
      obtain ⟨taken, rfl, hrest⟩ := exists_plain_of_collapse hc h
      refine .plain hc (ih hrest fun hrun => hend ?_)
      rw [endsInRun, List.foldl_cons, hc]
      exact hrun
  | blanks c cs hc ih =>
      have hrun : endsInRun false (c :: cs) = endsInRun true (cs.dropWhile isBlank) := by
        rw [endsInRun_dropWhile, endsInRun, List.foldl_cons, hc, endsInRun]
      rw [collapse_cons_blank hc, collapseFrom_true_eq] at h
      obtain ⟨blanks, taken, rfl, hblanks, hrest⟩ := exists_blanks_of_collapse h
      refine .blanks hc hblanks ?_ (ih hrest fun hlater => hend ?_)
      · cases taken with
        | nil =>
            have hnil : cs.dropWhile isBlank = [] := collapse_eq_nil_iff.mp hrest.symm
            exact hend (by rw [hrun, hnil]; rfl)
        | cons c' taken =>
            have hplain := beginsPlain_dropWhile cs
            rw [beginsPlain_iff_collapse, ← hrest, ← beginsPlain_iff_collapse] at hplain
            exact hplain
      · rw [hrun]
        exact endsInRun_of_false hlater

namespace Target

/-! ## Tokens of blanks -/

section

variable {source : String} {t : Target} {i j limit : Nat} {content : List Char}

theorem lexemes_unread (ht : tokenize source = .ok t) (i : Nat) :
    Stencil.lexemes (t.unread.getD i []) = t.lexemes.toList.drop i := by
  have hsplit := (List.take_append_drop i t.lexemes.toList).symm
  rw [lexemes_of_tokenize ht] at hsplit
  rw [(tiled_of_ofTokens? ht).unread_getD, lexemes_of_tokenize ht,
    lexemes_joined_of_append hsplit]

theorem blank_token (ht : tokenize source = .ok t) (hblank : ¬ BeginsPlain (t.unread.getD i [])) :
    (t.text i (i + 1)).all isBlank = true ∧ BeginsPlain (t.unread.getD (i + 1) []) := by
  have hT : t.Tiled := tiled_of_ofTokens? ht
  have hlexemes := lexemes_unread ht i
  cases hunread : t.unread.getD i [] with
  | nil => simp [hunread, BeginsPlain] at hblank
  | cons c cs =>
      have hc : isBlank c = true := by simpa [hunread, BeginsPlain] using hblank
      have hrun : lexemeRun c cs = (.blank, cs.takeWhile isBlank) := by
        rw [lexemeRun, if_pos hc]
      have hnext : t.lexemes.toList.drop (i + 1) = Stencil.lexemes (cs.dropWhile isBlank) := by
        have hdrop : cs.drop (cs.takeWhile isBlank).length = cs.dropWhile isBlank :=
          calc
            cs.drop (cs.takeWhile isBlank).length =
                (cs.takeWhile isBlank ++ cs.dropWhile isBlank).drop
                  (cs.takeWhile isBlank).length := by rw [List.takeWhile_append_dropWhile]
            _ = cs.dropWhile isBlank := List.drop_left
        rw [hunread, lexemes_cons, hrun, hdrop] at hlexemes
        rw [← List.drop_drop, ← hlexemes, List.drop_one, List.tail_cons]
      constructor
      · rw [hT.text_eq, ← hlexemes, hunread, lexemes_cons, hrun, Nat.add_sub_cancel_left]
        simp [hc]
      · rw [hT.unread_getD, hnext, joined_lexemes]
        exact beginsPlain_dropWhile cs

/-! ## The latest end -/

theorem eq_some_iff_isGreatest {found : Option Nat} {ends : Set Nat}
    (hend : ∀ j, found = some j → j ∈ ends)
    (hlater : ∀ j ∈ ends, ∃ k, j ≤ k ∧ found = some k) :
    (∀ j, found = some j ↔ IsGreatest ends j) ∧ (found = none ↔ ends = ∅) := by
  cases found with
  | none =>
      have hempty : ends = ∅ := by
        rw [Set.eq_empty_iff_forall_notMem]
        intro j hj
        obtain ⟨k, _, hk⟩ := hlater j hj
        cases hk
      simp [hempty, IsGreatest]
  | some k =>
      have hgreatest : IsGreatest ends k := by
        refine ⟨hend k rfl, fun j hj => ?_⟩
        obtain ⟨k', hjk, hk'⟩ := hlater j hj
        exact Option.some.inj hk' ▸ hjk
      constructor
      · intro j
        rw [Option.some.injEq]
        constructor
        · rintro rfl
          exact hgreatest
        · exact hgreatest.unique
      · simp [hgreatest.nonempty.ne_empty]

theorem exists_textEnds (ht : tokenize source = .ok t) (hij : i ≤ j) (hj : j ≤ limit)
    (hlimit : limit ≤ t.size) (hsame : collapse (t.text i j) = collapse content) :
    ∃ k, j ≤ k ∧ t.TextEnds content limit i k := by
  have hT : t.Tiled := tiled_of_ofTokens? ht
  by_cases hend : endsInRun false content = true → BeginsPlain (t.text j limit)
  · exact ⟨j, Nat.le_refl j, hij, hj, reads_of_collapse_eq hsame hend⟩
  · rw [Classical.not_imp] at hend
    obtain ⟨hrun, hgoes⟩ := hend
    have hlt : j < limit := by
      refine Nat.lt_of_le_of_ne hj ?_
      rintro rfl
      simp [hT.text_self, BeginsPlain] at hgoes
    have hblank : ¬ BeginsPlain (t.unread.getD j []) := by
      rw [hT.unread_append hj]
      exact fun hplain => hgoes hplain.of_append
    obtain ⟨hblanks, hplain⟩ := blank_token ht hblank
    rw [hT.unread_append (Nat.succ_le_of_lt hlt)] at hplain
    have hmore : collapse (t.text i (j + 1)) = collapse content := by
      rw [hT.text_append hij (Nat.le_succ j), ← hsame]
      rw [← endsInRun_of_collapse_eq hsame] at hrun
      exact collapse_append_blanks hrun hblanks
    exact ⟨j + 1, Nat.le_succ j, Nat.le_succ_of_le hij, hlt,
      reads_of_collapse_eq hmore fun _ => hplain.of_append⟩

/-- Read from token `i` on, a text ends at the last token up to which the source looks like
it, and it is not found only where there is no such token. -/
theorem text_ends_latest (ht : tokenize source = .ok t) (content : List Char) (hi : i ≤ limit)
    (hlimit : limit ≤ t.size) :
    let ends := {j | i ≤ j ∧ j ≤ limit ∧
      collapse (sliceBytes (t.offset i) (t.offset j) source.toList) = collapse content}
    (∀ j, t.readAt? (segments content) i limit = some j ↔ IsGreatest ends j) ∧
      (t.readAt? (segments content) i limit = none ↔ ends = ∅) := by
  intro ends
  have hT : t.Tiled := tiled_of_ofTokens? ht
  have hread : ∀ j, t.readAt? (segments content) i limit = some j ↔
      t.TextEnds content limit i j := fun j => readAt?_segments_iff hT hi hlimit
  have hmem : ∀ j, j ∈ ends ↔
      i ≤ j ∧ j ≤ limit ∧ collapse (t.text i j) = collapse content := by
    intro j
    refine and_congr_right fun hij => and_congr_right fun hj => ?_
    rw [← source_of_ofTokens? ht, hT.sliceBytes_source hij (Nat.le_trans hj hlimit)]
  apply eq_some_iff_isGreatest
  · intro j hj
    have hends := (hread j).mp hj
    exact (hmem j).mpr ⟨hends.1, hends.2.1, hends.2.2.collapse_eq.symm⟩
  · intro j hj
    obtain ⟨hij, hjl, hsame⟩ := (hmem j).mp hj
    obtain ⟨k, hjk, hends⟩ := exists_textEnds ht hij hjl hlimit hsame
    exact ⟨k, hjk, (hread k).mpr hends⟩

/-- The text could end with the comment, and takes the blanks behind it as well. -/
theorem text_ends_latest_comment :
    ∃ t, tokenize "x //a \t\n  y" = .ok t ∧ 2 ≤ 5 ∧ 5 ≤ t.size ∧
      collapse (sliceBytes (t.offset 2) (t.offset 3) "x //a \t\n  y".toList) =
        collapse "//a  ".toList ∧
      t.readAt? (segments "//a  ".toList) 2 5 = some 4 ∧
      IsGreatest {j | 2 ≤ j ∧ j ≤ 5 ∧
        collapse (sliceBytes (t.offset 2) (t.offset j) "x //a \t\n  y".toList) =
          collapse "//a  ".toList} 4 := by
  have hread : (do
        let t ← (tokenize "x //a \t\n  y").toOption
        return (t.size, t.readAt? (segments "//a  ".toList) 2 5,
          collapse (sliceBytes (t.offset 2) (t.offset 3) "x //a \t\n  y".toList))) =
      some (5, some 4, collapse "//a  ".toList) := by decide +kernel
  cases ht : tokenize "x //a \t\n  y" with
  | error e => simp [ht, Except.toOption] at hread
  | ok t =>
      simp only [ht, Except.toOption, Option.pure_def, Option.bind_eq_bind, Option.bind_some,
        Option.some.injEq, Prod.mk.injEq] at hread
      obtain ⟨hsize, hfour, hcomment⟩ := hread
      have hlatest := text_ends_latest ht "//a  ".toList (by decide : 2 ≤ 5) hsize.ge
      exact ⟨t, rfl, by decide, hsize.ge, hcomment, hfour, (hlatest.1 4).mp hfour⟩

end

end Target

end Stencil
