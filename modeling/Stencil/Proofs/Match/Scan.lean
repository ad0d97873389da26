import Stencil.Match.Find
import Stencil.Proofs.Match.Alignment

/-!
# The scan for matches

The scan gives alignments in the order of their first tokens, each of them what
the search finds at that token.  Where overlapping matches are not wanted, each
alignment ends before the next one starts.
-/

namespace Stencil

namespace Matcher

variable {m : Matcher} {t : Target} {overlapping : Bool} {i : Nat} {a : Alignment}

theorem align_of_matchAt? (h : m.matchAt? t i = some a) :
    align m.vocabulary t m.program i = some a := by
  unfold matchAt? at h
  split at h
  · exact (Option.filter_eq_some_iff.mp h).1
  · simp at h

theorem first_of_matchAt? (h : m.matchAt? t i = some a) : a.first = i := by
  obtain ⟨s, _, rfl⟩ := Option.map_eq_some_iff.mp (align_of_matchAt? h)
  rfl

theorem next?_eq_some {j : Nat} (h : m.next? t overlapping i = (some a, j)) :
    i ≤ a.first ∧ a.first < t.size ∧ m.matchAt? t a.first = some a ∧
      (∀ k, i ≤ k → k < a.first → m.matchAt? t k = none) ∧
      j = if overlapping then a.first + 1 else a.last := by
  fun_induction m.next? t overlapping i with
  | case1 i hi a' ha =>
      simp only [Prod.mk.injEq, Option.some.injEq] at h
      obtain ⟨rfl, rfl⟩ := h
      obtain rfl := first_of_matchAt? ha
      exact ⟨Nat.le_refl _, hi, ha, by omega, rfl⟩
  | case2 i hi hnone ih =>
      obtain ⟨hle, hlt, ha, hbefore, hj⟩ := ih h
      refine ⟨by omega, hlt, ha, ?_, hj⟩
      intro k hik hk
      rcases Nat.lt_or_eq_of_le hik with hik | rfl
      · exact hbefore k hik hk
      · exact hnone
  | case3 => simp at h

theorem mem_alignments (h : a ∈ m.alignments t overlapping i) :
    i ≤ a.first ∧ a.first < t.size ∧ m.matchAt? t a.first = some a := by
  fun_induction m.alignments t overlapping i with
  | case1 => simp at h
  | case2 i b j hnext hlt ih =>
      obtain ⟨hle, hsize, hb, _, _⟩ := next?_eq_some hnext
      rcases List.mem_cons.mp h with rfl | h
      · exact ⟨hle, hsize, hb⟩
      · obtain ⟨hj, ha⟩ := ih h
        exact ⟨by omega, ha⟩

theorem pairwise_alignments (m : Matcher) (t : Target) (overlapping : Bool) (i : Nat) :
    (m.alignments t overlapping i).Pairwise fun a b =>
      a.first < b.first ∧ (overlapping = false → a.last ≤ b.first) := by
  fun_induction m.alignments t overlapping i with
  | case1 => exact .nil
  | case2 i a j hnext hlt ih =>
      obtain ⟨_, _, ha, _, hj⟩ := next?_eq_some hnext
      refine List.pairwise_cons.mpr ⟨?_, ih⟩
      intro b hb
      have hjb := (mem_alignments hb).1
      have hlast := lt_of_matchAt? ha
      cases overlapping with
      | true =>
          simp only [if_true] at hj
          exact ⟨by omega, by simp⟩
      | false =>
          simp only [Bool.false_eq_true, if_false] at hj
          exact ⟨by omega, fun _ => by omega⟩

theorem pairwise_start_findAll (hT : t.Tiled) (m : Matcher) (overlapping : Bool) :
    (m.findAll t overlapping).Pairwise fun m m' => m.span.start < m'.span.start := by
  rw [findAll, List.pairwise_map]
  refine (m.pairwise_alignments t overlapping 0).imp_of_mem ?_
  intro a b ha _ hlt
  exact hT.offset_lt hlt.1 (mem_alignments ha).2.1

theorem lays_of_mem_alignments (hT : t.Tiled) (hN : t.Nested) {v : Vocabulary} {p : Pattern}
    (h : a ∈ (ofPattern v p).alignments t overlapping i) :
    Lays v t p t.size a.first [] a.last a.bindings ∧ t.Inside t.size a.first ∧
      a.first < a.last ∧ a.last ≤ t.size := by
  obtain ⟨_, hsize, hfound⟩ := mem_alignments h
  have hfirst : a.first ≤ t.size := Nat.le_of_lt hsize
  have hlays := (aligns_of_align hT hN hfirst (align_of_matchAt? hfound)).2
  have hinside : t.Inside t.size a.first := ⟨hfirst, .inl rfl⟩
  exact ⟨hlays, hinside, lt_of_matchAt? hfound, (hlays.inside hN hinside).2.1⟩

end Matcher

end Stencil
