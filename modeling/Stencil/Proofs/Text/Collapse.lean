import Mathlib.Data.List.TakeWhile
import Stencil.Text.Blank

/-!
# Collapsed text

Texts with one collapsed form are the same up to layout.  Collapsing does not go
through concatenation, because a run may reach over the seam, but being the same
up to layout does.
-/

namespace Stencil

/-- Whether the last character is a blank; `inRun` for no character at all. -/
def endsInRun (inRun : Bool) (cs : List Char) : Bool := cs.foldl (fun _ c => isBlank c) inRun

/-- Text is met character by character, but a run of blanks as a whole. -/
theorem blankRuns_induction {motive : List Char → Prop} (nil : motive [])
    (plain : ∀ c cs, isBlank c = false → motive cs → motive (c :: cs))
    (blanks : ∀ c cs, isBlank c = true → motive (cs.dropWhile isBlank) → motive (c :: cs))
    (cs : List Char) : motive cs := by
  induction hn : cs.length using Nat.strongRecOn generalizing cs with
  | ind n ih =>
      cases cs with
      | nil => exact nil
      | cons c cs =>
          simp only [List.length_cons] at hn
          have hshort := (List.dropWhile_suffix (l := cs) isBlank).length_le
          cases hc : isBlank c with
          | false => exact plain c cs hc (ih _ (by omega) cs rfl)
          | true => exact blanks c cs hc (ih _ (by omega) _ rfl)

theorem collapse_cons_plain {c : Char} (hc : isBlank c = false) (cs : List Char) :
    collapse (c :: cs) = c :: collapse cs := by
  simp [collapse, collapseFrom, hc]

theorem collapse_cons_blank {c : Char} (hc : isBlank c = true) (cs : List Char) :
    collapse (c :: cs) = ' ' :: collapseFrom true cs := by
  simp [collapse, collapseFrom, hc]

theorem collapseFrom_true_eq (cs : List Char) :
    collapseFrom true cs = collapse (cs.dropWhile isBlank) := by
  induction cs with
  | nil => rfl
  | cons c cs ih =>
      cases hc : isBlank c with
      | true => simp [collapseFrom, hc, ih]
      | false => simp [collapseFrom, collapse, hc]

theorem dropWhile_collapse (cs : List Char) :
    (collapse cs).dropWhile isBlank = collapse (cs.dropWhile isBlank) := by
  cases cs with
  | nil => rfl
  | cons c cs =>
      cases hc : isBlank c with
      | true =>
          rw [collapse_cons_blank hc, List.dropWhile_cons_of_pos (by decide),
            List.dropWhile_cons_of_pos hc, collapseFrom_true_eq]
          rcases hplain : cs.dropWhile isBlank with _ | ⟨c', cs'⟩
          · rfl
          · have hc' : isBlank c' = false := by
              have := List.head?_dropWhile_not isBlank cs
              simpa [hplain] using this
            rw [collapse_cons_plain hc', List.dropWhile_cons_of_neg (by simp [hc'])]
      | false =>
          rw [List.dropWhile_cons_of_neg (by simp [hc]), collapse_cons_plain hc,
            List.dropWhile_cons_of_neg (by simp [hc])]

theorem head?_collapse (cs : List Char) :
    (collapse cs).head? = cs.head?.map fun c => if isBlank c then ' ' else c := by
  cases cs with
  | nil => rfl
  | cons c cs =>
      cases hc : isBlank c with
      | true => simp [collapse_cons_blank hc, hc]
      | false => simp [collapse_cons_plain hc, hc]

theorem collapse_blanks_append {blanks : List Char} (hblanks : isBlankRun blanks = true)
    (cs : List Char) : collapse (blanks ++ cs) = ' ' :: collapse (cs.dropWhile isBlank) := by
  cases blanks with
  | nil => simp [isBlankRun] at hblanks
  | cons b blanks =>
      have hall : ∀ c ∈ b :: blanks, isBlank c = true := by
        simpa [isBlankRun] using hblanks
      rw [List.cons_append, collapse_cons_blank (hall b (by simp)), collapseFrom_true_eq,
        List.dropWhile_append_of_pos fun c hc => hall c (by simp [hc])]

/-! ## Texts read off their collapsed form -/

theorem collapse_eq_nil_iff {cs : List Char} : collapse cs = [] ↔ cs = [] := by
  rw [← List.head?_eq_none_iff, head?_collapse, Option.map_eq_none_iff, List.head?_eq_none_iff]

theorem exists_plain_of_collapse {c : Char} {cs out : List Char} (hc : isBlank c = false)
    (h : collapse cs = c :: out) : ∃ rest, cs = c :: rest ∧ collapse rest = out := by
  cases cs with
  | nil => simp [collapse, collapseFrom] at h
  | cons c' rest =>
      cases hc' : isBlank c' with
      | true =>
          rw [collapse_cons_blank hc', List.cons.injEq] at h
          rw [← h.1] at hc
          exact absurd hc (by decide)
      | false =>
          rw [collapse_cons_plain hc', List.cons.injEq] at h
          exact ⟨rest, by rw [h.1], h.2⟩

theorem exists_blanks_of_collapse {cs out : List Char} (h : collapse cs = ' ' :: out) :
    ∃ blanks rest, cs = blanks ++ rest ∧ isBlankRun blanks = true ∧ collapse rest = out := by
  cases cs with
  | nil => simp [collapse, collapseFrom] at h
  | cons c rest =>
      cases hc : isBlank c with
      | true =>
          rw [collapse_cons_blank hc, collapseFrom_true_eq, List.cons.injEq] at h
          refine ⟨c :: rest.takeWhile isBlank, rest.dropWhile isBlank, ?_, ?_, h.2⟩
          · rw [List.cons_append, List.takeWhile_append_dropWhile]
          · simp [isBlankRun, hc]
      | false =>
          rw [collapse_cons_plain hc, List.cons.injEq] at h
          rw [h.1] at hc
          exact absurd hc (by decide)

/-! ## Concatenation -/

theorem collapseFrom_append (inRun : Bool) (cs cs' : List Char) :
    collapseFrom inRun (cs ++ cs') =
      collapseFrom inRun cs ++ collapseFrom (endsInRun inRun cs) cs' := by
  induction cs generalizing inRun with
  | nil => rfl
  | cons c cs ih =>
      cases hc : isBlank c <;> cases inRun <;> simp [collapseFrom, endsInRun, hc, ih]

theorem endsInRun_collapseFrom (inRun : Bool) (cs : List Char) :
    endsInRun inRun (collapseFrom inRun cs) = endsInRun inRun cs := by
  induction cs generalizing inRun with
  | nil => rfl
  | cons c cs ih =>
      have hspace : isBlank ' ' = true := by decide
      simp only [endsInRun] at ih
      cases hc : isBlank c <;> cases inRun <;> simp [collapseFrom, endsInRun, hc, hspace, ih]

theorem endsInRun_of_collapse_eq {cs cs' : List Char} (h : collapse cs = collapse cs') :
    endsInRun false cs = endsInRun false cs' := by
  rw [← endsInRun_collapseFrom, ← endsInRun_collapseFrom false cs']
  exact congrArg (endsInRun false) h

theorem collapse_append_congr {front front' back back' : List Char}
    (hfront : collapse front = collapse front') (hback : collapse back = collapse back') :
    collapse (front ++ back) = collapse (front' ++ back') := by
  have hends := endsInRun_of_collapse_eq hfront
  have hseam : ∀ inRun, collapseFrom inRun back = collapseFrom inRun back' := by
    intro inRun
    cases inRun with
    | false => exact hback
    | true =>
        rw [collapseFrom_true_eq, collapseFrom_true_eq, ← dropWhile_collapse,
          ← dropWhile_collapse, hback]
  unfold collapse at hfront ⊢
  rw [collapseFrom_append, collapseFrom_append, hfront, hends, hseam]

theorem collapse_append_blanks {front blanks : List Char} (hfront : endsInRun false front = true)
    (hblanks : blanks.all isBlank = true) : collapse (front ++ blanks) = collapse front := by
  have hnone : blanks.dropWhile isBlank = [] :=
    List.dropWhile_eq_nil_iff.mpr (List.all_eq_true.mp hblanks)
  unfold collapse
  rw [collapseFrom_append, hfront, collapseFrom_true_eq, hnone]
  exact List.append_nil _

end Stencil
