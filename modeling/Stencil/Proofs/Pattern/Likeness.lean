import Mathlib.Data.List.DropRight
import Stencil.Match.Find
import Stencil.Proofs.Match.Alignment
import Stencil.Proofs.Text.Collapse

/-!
# Likeness of patterns

Patterns are alike exactly if they are one tree once offsets are dropped and runs
of blanks collapsed, and exactly if they have one program.  So no target tells
patterns that are alike apart, and they leave the same marks on a hash.
-/

namespace Stencil

/-! ## Text -/

def Segment.collapsed : Segment → List Char
  | literal text => text
  | blank => [' ']

theorem flatMap_collapsed_segments (cs : List Char) :
    (segments cs).flatMap Segment.collapsed = collapse cs := by
  induction cs using blankRuns_induction with
  | nil => rfl
  | plain c cs hc ih =>
      rw [collapse_cons_plain hc, ← ih, segments, if_neg (by simp [hc])]
      split
      · rename_i text rest hsegs
        simp [hsegs, Segment.collapsed]
      · simp [Segment.collapsed]
  | blanks c cs hc ih =>
      rw [segments_blank hc, collapse_cons_blank hc, collapseFrom_true_eq, ← ih]
      rfl

theorem segments_collapse (cs : List Char) : segments (collapse cs) = segments cs := by
  induction cs using blankRuns_induction with
  | nil => rfl
  | plain c cs hc ih => rw [collapse_cons_plain hc, segments, segments, ih]
  | blanks c cs hc ih =>
      have hplain : (cs.dropWhile isBlank).dropWhile isBlank = cs.dropWhile isBlank :=
        List.dropWhile_idempotent isBlank cs
      rw [collapse_cons_blank hc, collapseFrom_true_eq, segments_blank (by decide),
        segments_blank hc, dropWhile_collapse, hplain, ih]

theorem segments_eq_iff {cs cs' : List Char} :
    segments cs = segments cs' ↔ collapse cs = collapse cs' := by
  constructor
  · intro h
    rw [← flatMap_collapsed_segments, h, flatMap_collapsed_segments]
  · intro h
    rw [← segments_collapse, h, segments_collapse]

theorem collapse_collapse (cs : List Char) : collapse (collapse cs) = collapse cs :=
  segments_eq_iff.mp (segments_collapse cs)

/-! ## Steps -/

theorem Step.alike_iff {s s' : Step} : s.alike s' = true ↔ s.mark = s'.mark := by
  cases s <;> cases s' <;> simp [alike, mark, String.ofList_inj]

theorem Step.instr_eq_iff {s s' : Step} : s.instr = s'.instr ↔ s.mark = s'.mark := by
  cases s <;> cases s' <;> simp [instr, mark, segments_eq_iff, String.ofList_inj]

theorem alikeSteps_iff {ss ss' : List Step} :
    alikeSteps ss ss' = true ↔ ss.map Step.mark = ss'.map Step.mark := by
  induction ss generalizing ss' with
  | nil => cases ss' <;> simp [alikeSteps]
  | cons s ss ih => cases ss' <;> simp [alikeSteps, Step.alike_iff, ih]

theorem map_instr_eq_iff {ss ss' : List Step} :
    ss.map Step.instr = ss'.map Step.instr ↔ ss.map Step.mark = ss'.map Step.mark := by
  induction ss generalizing ss' with
  | nil => cases ss' <;> simp
  | cons s ss ih => cases ss' <;> simp [Step.instr_eq_iff, ih]

namespace Pattern

/-! ## Trees -/

/-- The tree without offsets, with every run of blanks in its texts collapsed. -/
def bare : Pattern → Pattern
  | nil => nil
  | hole h _ rest => hole h 0 rest.bare
  | text content _ rest => text (String.ofList (collapse content.toList)) 0 rest.bare
  | block _ body rest => block 0 body.bare rest.bare

@[simp] theorem marks_nil : nil.marks = [] := rfl

@[simp] theorem marks_hole (h : Hole) (offset : Nat) (rest : Pattern) :
    (hole h offset rest).marks = .hole h :: rest.marks := rfl

@[simp] theorem marks_text (content : String) (offset : Nat) (rest : Pattern) :
    (text content offset rest).marks =
      .text (String.ofList (collapse content.toList)) :: rest.marks := rfl

@[simp] theorem marks_block (offset : Nat) (body rest : Pattern) :
    (block offset body rest).marks = .enter :: (body.marks ++ .exit :: rest.marks) := by
  simp [marks, steps, Step.mark]

theorem marks_bare (p : Pattern) : p.bare.marks = p.marks := by
  induction p with
  | nil => rfl
  | hole h offset rest ih => simp [bare, ih]
  | text content offset rest ih => simp [bare, ih, collapse_collapse]
  | block offset body rest ihBody ihRest => simp [bare, ihBody, ihRest]

def LeavesBlock (more : List Mark) : Prop := ∀ m ∈ more.head?, m = .exit

theorem eq_nil_of_marks_append {p : Pattern} {more more' : List Mark}
    (h : p.marks ++ more = more') (hmore' : LeavesBlock more') : p = nil := by
  subst h
  cases p <;> simp_all [LeavesBlock]

/-- The marks tell where a pattern ends: where a block is left that it has not
entered. -/
theorem bare_eq_of_marks_append {p q : Pattern} {more more' : List Mark}
    (hmore : LeavesBlock more) (hmore' : LeavesBlock more')
    (h : p.marks ++ more = q.marks ++ more') : p.bare = q.bare ∧ more = more' := by
  induction p generalizing q more more' with
  | nil =>
      obtain rfl : q = nil := eq_nil_of_marks_append h.symm hmore
      exact ⟨rfl, h⟩
  | hole hole offset rest ih =>
      cases q with
      | nil => exact absurd (eq_nil_of_marks_append h hmore') (by simp)
      | hole hole' offset' rest' =>
          simp only [marks_hole, List.cons_append, List.cons.injEq, Mark.hole.injEq] at h
          obtain ⟨rfl, h⟩ := h
          obtain ⟨hrest, hends⟩ := ih hmore hmore' h
          exact ⟨by rw [bare, bare, hrest], hends⟩
      | text | block => simp at h
  | text content offset rest ih =>
      cases q with
      | nil => exact absurd (eq_nil_of_marks_append h hmore') (by simp)
      | text content' offset' rest' =>
          simp only [marks_text, List.cons_append, List.cons.injEq, Mark.text.injEq] at h
          obtain ⟨hcontent, h⟩ := h
          obtain ⟨hrest, hends⟩ := ih hmore hmore' h
          exact ⟨by rw [bare, bare, hcontent, hrest], hends⟩
      | hole | block => simp at h
  | block offset body rest ihBody ihRest =>
      cases q with
      | nil => exact absurd (eq_nil_of_marks_append h hmore') (by simp)
      | block offset' body' rest' =>
          simp only [marks_block, List.cons_append, List.append_assoc, List.cons.injEq,
            true_and] at h
          obtain ⟨hbody, h⟩ := ihBody (by simp [LeavesBlock]) (by simp [LeavesBlock]) h
          simp only [List.cons.injEq, true_and] at h
          obtain ⟨hrest, hends⟩ := ihRest hmore hmore' h
          exact ⟨by rw [bare, bare, hbody, hrest], hends⟩
      | hole | text => simp at h

theorem marks_eq_iff {p q : Pattern} : p.marks = q.marks ↔ p.bare = q.bare := by
  constructor
  · intro h
    have hends : LeavesBlock [] := by simp [LeavesBlock]
    exact (bare_eq_of_marks_append hends hends (by rw [h])).1
  · intro h
    rw [← marks_bare, h, marks_bare]

theorem alike_iff_marks_eq {p q : Pattern} : p.alike q = true ↔ p.marks = q.marks :=
  alikeSteps_iff

theorem program_eq_iff {p q : Pattern} : p.program = q.program ↔ p.marks = q.marks :=
  map_instr_eq_iff

/-- Patterns are alike exactly if they are one tree up to offsets and layout, and
exactly if they have one program; then they have the same matches and leave the same
marks on a hash. -/
theorem alike_iff_indistinct (p q : Pattern) :
    (p.alike q = true ↔ p.bare = q.bare) ∧
      (p.alike q = true ↔ p.program = q.program) ∧
      (p.alike q = true → ∀ (v : Vocabulary) (t : Target) (overlapping : Bool),
        (Matcher.ofPattern v p).findAll t overlapping =
          (Matcher.ofPattern v q).findAll t overlapping) ∧
      (p.alike q = true → p.marks = q.marks ∧ hash p = hash q) := by
  rw [alike_iff_marks_eq]
  refine ⟨marks_eq_iff, program_eq_iff.symm, ?_, ?_⟩
  · intro h v t overlapping
    rw [Matcher.ofPattern, Matcher.ofPattern, program_eq_iff.mpr h]
  · intro h
    exact ⟨h, congrArg (hash : List Mark → UInt64) h⟩

/-- Two layouts of one pattern, with a block and a hole in it. -/
theorem alike_iff_indistinct_layouts :
    ∃ p q, compile "if \x7b  :[x] \x7d" = .ok p ∧ compile "if\t\x7b :[x]\n\x7d" = .ok q ∧ p ≠ q ∧
      p.alike q = true ∧ p.bare = q.bare ∧ p.program = q.program ∧ p.marks = q.marks ∧
      ∀ (v : Vocabulary) (t : Target) (overlapping : Bool),
        (Matcher.ofPattern v p).findAll t overlapping =
          (Matcher.ofPattern v q).findAll t overlapping := by
  have hruns : (do
        let p ← (compile "if \x7b  :[x] \x7d").toOption
        let q ← (compile "if\t\x7b :[x]\n\x7d").toOption
        return (decide (p = q), p.alike q)) = some (false, true) := by decide +kernel
  obtain ⟨p, q, hp, hq, hruns⟩ := exists_ok_of_bind_toOption hruns
  obtain ⟨hne, halike⟩ := Prod.mk.inj hruns
  obtain ⟨hbare, hprogram, hmatches, hmarks⟩ := alike_iff_indistinct p q
  exact ⟨p, q, hp, hq, by simpa using hne, halike, hbare.mp halike, hprogram.mp halike,
    (hmarks halike).1, hmatches halike⟩

end Pattern

end Stencil
