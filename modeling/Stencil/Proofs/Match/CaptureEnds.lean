import Mathlib.Logic.Relation
import Stencil.Match.Alignment
import Stencil.Proofs.Target.Scopes

/-!
# Capture ends

Where a hole may end: after one unit, or after any number of atoms up to the
closer of the group it stands in.  The candidates of the search are these ends,
each once, in increasing order.
-/

namespace Stencil

open Relation

namespace Target

def Group (t : Target) (i j : Nat) : Prop :=
  ∃ d, t.kind? i = some (.opening d) ∧ j = t.partner i + 1

def Atom (t : Target) (i j : Nat) : Prop :=
  t.Group i j ∨
    ∃ k, t.kind? i = some k ∧ (∀ d, k ≠ .opening d) ∧ (∀ d, k ≠ .closing d) ∧ j = i + 1

inductive CaptureEnd (t : Target) (i j : Nat) : Quantifier → Prop where
  | group (h : t.Group i j) : CaptureEnd t i j .one
  | single (hkind : t.kind? i = some .punct ∨ t.kind? i = some .comment) (hj : j = i + 1) :
      CaptureEnd t i j .one
  /-- A word or literal with the groups glued to it. -/
  | glued (hkind : t.kind? i = some .word ∨ t.kind? i = some .literal)
      (h : ReflTransGen t.Group (i + 1) j) : CaptureEnd t i j .one
  | atoms (h : ReflTransGen t.Atom i j) (hj : j ≤ t.scopeEnd i) : CaptureEnd t i j .block

variable {t : Target} {i j limit : Nat}

/-! ## Atoms -/

theorem group_iff (h : t.Nested) : t.Group i j ↔ t.isOpening i = true ∧ j = t.after i := by
  rw [isOpening_iff, Group]
  constructor
  · rintro ⟨d, ho, rfl⟩
    exact ⟨⟨d, ho⟩, (h.after_opening ho).symm⟩
  · rintro ⟨⟨d, ho⟩, rfl⟩
    exact ⟨d, ho, h.after_opening ho⟩

theorem atom_iff (h : t.Nested) :
    t.Atom i j ↔ i < t.size ∧ (∀ d, t.kind? i ≠ some (.closing d)) ∧ j = t.after i := by
  constructor
  · rintro (hgroup | ⟨k, hk, hopening, hclosing, rfl⟩)
    · obtain ⟨hopening, rfl⟩ := (group_iff h).mp hgroup
      obtain ⟨d, ho⟩ := isOpening_iff.mp hopening
      exact ⟨kind?_lt ho, by simp [ho], rfl⟩
    · refine ⟨kind?_lt hk, ?_, (Nested.after_other ?_).symm⟩
      · intro d
        simpa [hk] using hclosing d
      · intro d
        simpa [hk] using hopening d
  · rintro ⟨hi, hclosing, rfl⟩
    cases hopening : t.isOpening i with
    | true => exact .inl ((group_iff h).mpr ⟨hopening, rfl⟩)
    | false =>
        have hother : ∀ d, t.kind? i ≠ some (.opening d) := by
          intro d ho
          simp [isOpening_iff.mpr ⟨d, ho⟩] at hopening
        rw [Nested.after_other hother]
        obtain ⟨l, hl⟩ : ∃ l, t.lexemes[i]? = some l := ⟨_, Array.getElem?_eq_getElem hi⟩
        have hk : t.kind? i = some l.kind := by simp [kind?, hl]
        rw [hk] at hother hclosing
        exact .inr ⟨l.kind, hk, by simpa using hother, by simpa using hclosing, rfl⟩

theorem lt_after (t : Target) (i : Nat) : i < t.after i := by
  unfold after
  split <;> omega

theorem atom_after (h : t.Nested) (hi : i < t.scopeEnd i) :
    t.Atom i (t.after i) ∧ t.scopeEnd (t.after i) = t.scopeEnd i ∧ t.after i ≤ t.scopeEnd i := by
  have hsize : i < t.size := Nat.lt_of_lt_of_le hi (h.scopeEnd_le_size i)
  have hclosing : ∀ d, t.kind? i ≠ some (.closing d) := by
    intro d hd
    rw [h.scopeEnd_closing hd] at hi
    exact Nat.lt_irrefl i hi
  have hscope := h.scopeEnd_after hclosing
  refine ⟨(atom_iff h).mpr ⟨hsize, hclosing, rfl⟩, hscope, ?_⟩
  rw [← hscope]
  apply h.le_scopeEnd
  cases hopening : t.isOpening i with
  | true =>
      obtain ⟨d, ho⟩ := isOpening_iff.mp hopening
      rw [h.after_opening ho]
      exact h.partner_lt_size ho
  | false =>
      simp only [after, hopening]
      exact hsize

theorem lt_scopeEnd_of_atom (h : t.Nested) (hatom : t.Atom i j) : i < t.scopeEnd i := by
  obtain ⟨hi, hclosing, _⟩ := (atom_iff h).mp hatom
  exact h.lt_scopeEnd hi hclosing

theorem scopeEnd_of_atoms (h : t.Nested) (hatoms : ReflTransGen t.Atom i j)
    (hi : i ≤ t.scopeEnd i) : i ≤ j ∧ j ≤ t.scopeEnd i ∧ t.scopeEnd j = t.scopeEnd i := by
  induction hatoms with
  | refl => exact ⟨Nat.le_refl _, hi, rfl⟩
  | @tail j k _ hatom ih =>
      obtain ⟨hij, _, hscope⟩ := ih
      obtain ⟨_, hnext, hle⟩ := atom_after h (lt_scopeEnd_of_atom h hatom)
      obtain ⟨_, _, rfl⟩ := (atom_iff h).mp hatom
      have := t.lt_after j
      rw [← hscope]
      exact ⟨by omega, hle, hnext⟩

theorem balanced_of_atom (h : t.Nested) (hatom : t.Atom i j) : Balanced t.kinds i j := by
  rcases hatom with ⟨d, ho, rfl⟩ | ⟨k, hk, hopening, hclosing, rfl⟩
  · obtain ⟨hcloser, htop, hstays⟩ := h.opened_partner ho
    rw [kind?_eq] at hcloser
    have hafter : opened t.kinds (t.partner i + 1) = opened t.kinds i := by
      rw [opened_succ_of_closing hcloser, htop, List.tail_cons]
    refine ⟨hafter, fun n hin hn => ?_⟩
    rcases Nat.eq_or_lt_of_le hin with rfl | hlt
    · exact List.suffix_refl _
    · rcases Nat.eq_or_lt_of_le hn with rfl | hn
      · exact hafter ▸ List.suffix_refl _
      · exact (List.suffix_cons _ _).trans (hstays n hlt (by omega))
  · rw [kind?_eq] at hk
    have hafter : opened t.kinds (i + 1) = opened t.kinds i :=
      opened_succ_of_other (by simpa [hk] using hopening) (by simpa [hk] using hclosing)
    refine ⟨hafter, fun n hin hn => ?_⟩
    rcases Nat.eq_or_lt_of_le hin with rfl | hlt
    · exact List.suffix_refl _
    · obtain rfl : n = i + 1 := by omega
      exact hafter ▸ List.suffix_refl _

theorem balanced_of_atoms (h : t.Nested) (hatoms : ReflTransGen t.Atom i j) :
    Balanced t.kinds i j := by
  induction hatoms with
  | refl => exact .refl _ _
  | tail _ hatom ih => exact ih.trans (balanced_of_atom h hatom)

/-! ## Candidates -/

theorem mem_atomEnds_iff (h : t.Nested) (hscope : t.scopeEnd i = limit) (hi : i ≤ limit) :
    j ∈ t.atomEnds limit i ↔ ReflTransGen t.Atom i j := by
  fun_induction t.atomEnds limit i with
  | case1 i hlt ih =>
      subst hscope
      obtain ⟨hatom, hnext, hle⟩ := atom_after h hlt
      rw [List.mem_cons, ih hnext hle, ReflTransGen.cases_head_iff (a := i)]
      constructor
      · rintro (rfl | hatoms)
        · exact .inl rfl
        · exact .inr ⟨_, hatom, hatoms⟩
      · rintro (rfl | ⟨next, hnext, hatoms⟩)
        · exact .inl rfl
        · obtain ⟨_, _, rfl⟩ := (atom_iff h).mp hnext
          exact .inr hatoms
  | case2 i hend =>
      subst hscope
      rw [List.mem_singleton, ReflTransGen.cases_head_iff]
      constructor
      · rintro rfl
        exact .inl rfl
      · rintro (rfl | ⟨next, hnext, _⟩)
        · rfl
        · exact absurd (lt_scopeEnd_of_atom h hnext) hend

theorem mem_groupEnds_iff (h : t.Nested) (hscope : t.scopeEnd i = limit) (hi : i ≤ limit) :
    j ∈ i :: t.groupEnds limit i ↔ ReflTransGen t.Group i j := by
  fun_induction t.groupEnds limit i with
  | case1 i hgroup ih =>
      subst hscope
      obtain ⟨_, hnext, hle⟩ := atom_after h hgroup.1
      rw [List.mem_cons, ih hnext hle, ReflTransGen.cases_head_iff (a := i)]
      constructor
      · rintro (rfl | hgroups)
        · exact .inl rfl
        · exact .inr ⟨_, (group_iff h).mpr ⟨hgroup.2, rfl⟩, hgroups⟩
      · rintro (rfl | ⟨next, hnext, hgroups⟩)
        · exact .inl rfl
        · obtain ⟨_, rfl⟩ := (group_iff h).mp hnext
          exact .inr hgroups
  | case2 i hend =>
      subst hscope
      rw [List.mem_singleton, ReflTransGen.cases_head_iff]
      constructor
      · rintro rfl
        exact .inl rfl
      · rintro (rfl | ⟨next, hnext, _⟩)
        · rfl
        · exact absurd ⟨lt_scopeEnd_of_atom h (.inl hnext), ((group_iff h).mp hnext).1⟩ hend

theorem atoms_of_captureEnd {q : Quantifier} (hend : t.CaptureEnd i j q) :
    ReflTransGen t.Atom i j := by
  cases hend with
  | group hgroup => exact .single (.inl hgroup)
  | single hkind hj =>
      refine .single (.inr ?_)
      rcases hkind with hk | hk <;> exact ⟨_, hk, by simp, by simp, hj⟩
  | glued hkind hgroups =>
      refine .head (.inr ?_) (ReflTransGen.mono (fun _ _ hgroup => Or.inl hgroup) _ _ hgroups)
      rcases hkind with hk | hk <;> exact ⟨_, hk, by simp, by simp, rfl⟩
  | atoms hatoms _ => exact hatoms

theorem captureEnd_le (h : t.Nested) {q : Quantifier} (hi : i ≤ t.size)
    (hend : t.CaptureEnd i j q) : i ≤ j ∧ j ≤ t.scopeEnd i := by
  have hatoms := scopeEnd_of_atoms h (atoms_of_captureEnd hend) (h.le_scopeEnd hi)
  exact ⟨hatoms.1, hatoms.2.1⟩

theorem lt_scopeEnd_of_unit (h : t.Nested) (hend : t.CaptureEnd i j .one) :
    i < t.scopeEnd i := by
  cases hend with
  | group hgroup => exact lt_scopeEnd_of_atom h (.inl hgroup)
  | single hkind _ =>
      rcases hkind with hk | hk <;> exact h.lt_scopeEnd (kind?_lt hk) (by simp [hk])
  | glued hkind _ =>
      rcases hkind with hk | hk <;> exact h.lt_scopeEnd (kind?_lt hk) (by simp [hk])

theorem mem_unitEnds_iff (h : t.Nested) :
    j ∈ t.unitEnds (t.scopeEnd i) i ↔ t.CaptureEnd i j .one := by
  constructor
  · intro hj
    rw [unitEnds] at hj
    split at hj
    · rename_i hlt
      obtain ⟨_, hnext, hle⟩ := atom_after h hlt
      split at hj
      · simp at hj
      · simp at hj
      · simp at hj
      · rename_i d ho
        rw [List.mem_singleton] at hj
        exact .group ((group_iff h).mpr ⟨isOpening_iff.mpr ⟨d, ho⟩, hj⟩)
      · rename_i hk
        exact .single (.inr hk) (List.mem_singleton.mp hj)
      · rename_i hk
        exact .single (.inl hk) (List.mem_singleton.mp hj)
      · rename_i hk
        rw [Nested.after_other (by simp [hk])] at hnext hle
        exact .glued (.inl hk) ((mem_groupEnds_iff h hnext hle).mp hj)
      · rename_i hk
        rw [Nested.after_other (by simp [hk])] at hnext hle
        exact .glued (.inr hk) ((mem_groupEnds_iff h hnext hle).mp hj)
    · simp at hj
  · intro hend
    have hlt := lt_scopeEnd_of_unit h hend
    obtain ⟨_, hnext, hle⟩ := atom_after h hlt
    rw [unitEnds, if_pos hlt]
    cases hend with
    | group hgroup =>
        obtain ⟨hopening, rfl⟩ := (group_iff h).mp hgroup
        obtain ⟨d, ho⟩ := isOpening_iff.mp hopening
        simp [ho]
    | single hkind hj => rcases hkind with hk | hk <;> simp [hk, hj]
    | glued hkind hgroups =>
        rcases hkind with hk | hk
        all_goals
          rw [Nested.after_other (by simp [hk])] at hnext hle
          simpa [hk] using (mem_groupEnds_iff h hnext hle).mpr hgroups

/-- The candidates of the search are the ends that a hole may have. -/
theorem mem_captureEnds_iff (h : t.Nested) {q : Quantifier} (hi : i ≤ t.size) :
    j ∈ t.captureEnds q (t.scopeEnd i) i ↔ t.CaptureEnd i j q := by
  cases q with
  | one => exact mem_unitEnds_iff h
  | block =>
      have hle := h.le_scopeEnd hi
      rw [captureEnds, mem_atomEnds_iff h rfl hle]
      constructor
      · intro hatoms
        exact .atoms hatoms (scopeEnd_of_atoms h hatoms hle).2.1
      · exact atoms_of_captureEnd

/-! ## Order -/

theorem pairwise_groupEnds (t : Target) (limit i : Nat) :
    (t.groupEnds limit i).Pairwise (· < ·) ∧ ∀ j ∈ t.groupEnds limit i, i < j := by
  fun_induction t.groupEnds limit i with
  | case1 i hgroup ih =>
      have := t.lt_after i
      refine ⟨List.pairwise_cons.mpr ⟨ih.2, ih.1⟩, ?_⟩
      intro j hj
      rcases List.mem_cons.mp hj with rfl | hj
      · exact this
      · exact Nat.lt_trans this (ih.2 j hj)
  | case2 i hend => simp

theorem pairwise_atomEnds (t : Target) (limit i : Nat) :
    (t.atomEnds limit i).Pairwise (· < ·) ∧ ∀ j ∈ t.atomEnds limit i, i ≤ j := by
  fun_induction t.atomEnds limit i with
  | case1 i hlt ih =>
      have := t.lt_after i
      refine ⟨List.pairwise_cons.mpr ⟨fun j hj => Nat.lt_of_lt_of_le this (ih.2 j hj), ih.1⟩, ?_⟩
      intro j hj
      rcases List.mem_cons.mp hj with rfl | hj
      · exact Nat.le_refl _
      · exact Nat.le_trans (Nat.le_of_lt this) (ih.2 j hj)
  | case2 i hend => simp

theorem pairwise_captureEnds (t : Target) (q : Quantifier) (limit i : Nat) :
    (t.captureEnds q limit i).Pairwise (· < ·) := by
  cases q with
  | block => exact (t.pairwise_atomEnds limit i).1
  | one =>
      rw [captureEnds, unitEnds]
      split
      · obtain ⟨hpairwise, hlater⟩ := t.pairwise_groupEnds limit (i + 1)
        split
        all_goals simp [hpairwise]
        all_goals exact hlater
      · exact .nil

end Target

end Stencil
