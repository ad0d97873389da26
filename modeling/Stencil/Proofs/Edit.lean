import Stencil.Edit

/-!
# Kept edits

Which edits are kept, how a kept edit is found again, and what the kept edits
make of a source.
-/

namespace Stencil

namespace Edit

def Before (e f : Edit) : Prop := e.start < f.start ∨ (e.start = f.start ∧ e.rule < f.rule)

/-! ## Sorting -/

theorem pairwise_before_mergeSort {es : List Edit}
    (hdistinct : es.Pairwise fun e f => e.start ≠ f.start ∨ e.rule ≠ f.rule) :
    (es.mergeSort le).Pairwise Before := by
  have hsorted : (es.mergeSort le).Pairwise fun e f => e.start ≠ f.start ∨ e.rule ≠ f.rule :=
    hdistinct.perm (List.mergeSort_perm _ _).symm (by
      intro e f h
      omega)
  refine ((pairwise_le_mergeSort es).and hsorted).imp ?_
  rintro e f ⟨hle, hne⟩
  have := le_iff.mp hle
  simp only [Before]
  omega

theorem mergeSort_eq_of_perm {es fs : List Edit} (hperm : fs.Perm es)
    (hdistinct : es.Pairwise fun e f => e.start ≠ f.start ∨ e.rule ≠ f.rule) :
    fs.mergeSort le = es.mergeSort le := by
  have hdistinct' : fs.Pairwise fun e f => e.start ≠ f.start ∨ e.rule ≠ f.rule :=
    hdistinct.perm hperm.symm (by
      intro e f h
      omega)
  have hsorted := ((List.mergeSort_perm fs le).trans hperm).trans (List.mergeSort_perm es le).symm
  refine hsorted.eq_of_pairwise ?_ (pairwise_before_mergeSort hdistinct')
    (pairwise_before_mergeSort hdistinct)
  intro e f _ _ hef hfe
  simp only [Before] at hef hfe
  omega

/-! ## Lookup -/

theorem place_eq_iff {e : Edit} {start rule : Nat} :
    e.place start rule = .eq ↔ e.start = start ∧ e.rule = rule := by
  simp [place, Ordering.then_eq_eq]

theorem place_eq_lt_iff {e : Edit} {start rule : Nat} :
    e.place start rule = .lt ↔ e.start < start ∨ (e.start = start ∧ e.rule < rule) := by
  simp [place, Ordering.then_eq_lt, Nat.compare_eq_lt]

theorem place_eq_gt_iff {e : Edit} {start rule : Nat} :
    e.place start rule = .gt ↔ start < e.start ∨ (e.start = start ∧ rule < e.rule) := by
  simp [place, Ordering.then_eq_gt, Nat.compare_eq_gt]

private theorem le_of_index_le {edits : Array Edit}
    (hordered : edits.toList.Pairwise fun e f => e.le f = true) {i j : Nat} (hij : i ≤ j)
    {e f : Edit} (he : edits[i]? = some e) (hf : edits[j]? = some f) : e.le f = true := by
  rcases Nat.lt_or_eq_of_le hij with hij | rfl
  · obtain ⟨hi, rfl⟩ := Array.getElem?_eq_some_iff.mp he
    obtain ⟨hj, rfl⟩ := Array.getElem?_eq_some_iff.mp hf
    exact List.pairwise_iff_getElem.mp hordered i j (by simpa using hi) (by simpa using hj) hij
  · obtain rfl := Option.some.inj (he.symm.trans hf)
    exact le_iff.mpr (.inr ⟨rfl, Nat.le_refl _⟩)

/-- Halving finds whatever is there, because the half left out lies on the other
side of the edit in the middle. -/
theorem search_iff {edits : Array Edit}
    (hordered : edits.toList.Pairwise fun e f => e.le f = true) {start rule lo hi : Nat}
    (hhi : hi ≤ edits.size) :
    search edits start rule lo hi = true ↔
      ∃ i e, lo ≤ i ∧ i < hi ∧ edits[i]? = some e ∧ e.start = start ∧ e.rule = rule := by
  fun_induction search edits start rule lo hi with
  | case1 lo hi hlt hnone =>
      have := Array.getElem?_eq_none_iff.mp hnone
      omega
  | case2 lo hi hlt e he hplace =>
      obtain ⟨hstart, hrule⟩ := place_eq_iff.mp hplace
      simp only [true_iff]
      exact ⟨_, e, by omega, by omega, he, hstart, hrule⟩
  | case3 lo hi hlt e he hplace ih =>
      rw [ih hhi]
      have hbefore := place_eq_lt_iff.mp hplace
      constructor
      · rintro ⟨i, f, hlo, hi, hf⟩
        exact ⟨i, f, by omega, hi, hf⟩
      · rintro ⟨i, f, hlo, hi, hf, hstart, hrule⟩
        refine ⟨i, f, ?_, hi, hf, hstart, hrule⟩
        refine Nat.lt_of_not_le fun hle => ?_
        have := le_iff.mp (le_of_index_le hordered hle hf he)
        omega
  | case4 lo hi hlt e he hplace ih =>
      rw [ih (by omega)]
      have hbehind := place_eq_gt_iff.mp hplace
      constructor
      · rintro ⟨i, f, hlo, hi, hf⟩
        exact ⟨i, f, hlo, by omega, hf⟩
      · rintro ⟨i, f, hlo, hi, hf, hstart, hrule⟩
        refine ⟨i, f, hlo, ?_, hf, hstart, hrule⟩
        refine Nat.lt_of_not_le fun hle => ?_
        have := le_iff.mp (le_of_index_le hordered hle he hf)
        omega
  | case5 lo hi hlt =>
      simp only [Bool.false_eq_true, false_iff]
      rintro ⟨i, f, hlo, hi, _⟩
      omega

/-! ## Keeping -/

/-- An edit is dropped exactly if it starts inside one that is kept and comes
first. -/
theorem not_mem_keep_iff {es : List Edit} (hes : es.Pairwise Before) {e : Edit} (he : e ∈ es)
    (last : Option Nat) :
    e ∉ keep last es ↔
      (∃ stop ∈ last, e.start < stop) ∨ ∃ f ∈ keep last es, f.Before e ∧ e.start < f.stop := by
  induction es generalizing last with
  | nil => simp at he
  | cons f es ih =>
      obtain ⟨hf, hes⟩ := List.pairwise_cons.mp hes
      have hirrefl : ∀ {last}, f ∉ keep last es := by
        intro last hmem
        have := hf f ((keep_sublist last es).subset hmem)
        simp only [Before] at this
        omega
      rw [keep]
      -- The first edit starts inside what is kept and is dropped, or it is kept and sets the end.
      split
      · rename_i hinside
        obtain ⟨stop, hstop, hlt⟩ : ∃ stop ∈ last, f.start < stop := by
          simpa [Option.any_eq_true] using hinside
        rcases List.mem_cons.mp he with rfl | he
        · simp only [hirrefl, not_false_eq_true, true_iff]
          exact .inl ⟨stop, hstop, hlt⟩
        · exact ih hes he last
      · rename_i hbehind
        have hstop : ∀ stop ∈ last, stop ≤ f.start := by
          intro stop hstop
          rw [Option.mem_def.mp hstop] at hbehind
          simpa using hbehind
        rcases List.mem_cons.mp he with rfl | he
        · simp only [List.mem_cons, true_or, not_true_eq_false, false_iff, not_or, not_exists,
            not_and]
          constructor
          · intro stop hlast
            have := hstop stop hlast
            omega
          · rintro g (rfl | hg) hbefore
            · simp [Before] at hbefore
            · have := hf g ((keep_sublist _ es).subset hg)
              simp only [Before] at this hbefore
              omega
        · have hbefore := hf e he
          have hne : e ≠ f := by
            rintro rfl
            simp [Before] at hbefore
          have hlast : ¬ ∃ stop ∈ last, e.start < stop := by
            rintro ⟨stop, hlast, hlt⟩
            have := hstop stop hlast
            simp only [Before] at hbefore
            omega
          simp only [List.mem_cons, hne, false_or, ih hes he (some f.stop), hlast,
            exists_eq_or_imp, hbefore, true_and]
          simp

theorem exists_dropped {es : List Edit} (hes : es.Pairwise fun e f => e.le f = true)
    (last : Option Nat) :
    ∃ dropped, es.Perm (keep last es ++ dropped) ∧ ∀ e ∈ dropped,
      (∃ stop ∈ last, e.start < stop) ∨
        ∃ f ∈ keep last es, f.le e = true ∧ e.start < f.stop := by
  induction es generalizing last with
  | nil => exact ⟨[], .nil, by simp⟩
  | cons e es ih =>
      obtain ⟨hle, hes⟩ := List.pairwise_cons.mp hes
      rw [keep]
      split
      · rename_i hinside
        obtain ⟨dropped, hperm, hdropped⟩ := ih hes last
        refine ⟨e :: dropped, (hperm.cons e).trans List.perm_middle.symm, ?_⟩
        intro f hf
        rcases List.mem_cons.mp hf with rfl | hf
        · exact .inl (by simpa [Option.any_eq_true] using hinside)
        · exact hdropped f hf
      · obtain ⟨dropped, hperm, hdropped⟩ := ih hes (some e.stop)
        refine ⟨dropped, hperm.cons e, ?_⟩
        intro f hf
        have hmem : f ∈ es := hperm.mem_iff.mpr (List.mem_append_right _ hf)
        rcases hdropped f hf with ⟨stop, hstop, hlt⟩ | ⟨g, hg, hgf, hlt⟩
        · obtain rfl := Option.mem_some.mp hstop
          exact .inr ⟨e, by simp, hle f hmem, hlt⟩
        · exact .inr ⟨g, by simp [hg], hgf, hlt⟩

/-! ## Replacing -/

def replaceIn (e : Edit) (source : List UInt8) : List UInt8 :=
  source.take e.start ++ utf8Bytes e.replacement.toList ++ source.drop e.stop

/-- All replaced, the last one first, so that the ranges of the others stay where
they are. -/
def replaceAll (es : List Edit) (source : List UInt8) : List UInt8 :=
  es.foldr replaceIn source

theorem take_replaceAll {es : List Edit} {source : List UInt8} {n : Nat}
    (hn : n ≤ source.length) (hes : ∀ e ∈ es, n ≤ e.start) :
    (replaceAll es source).take n = source.take n := by
  induction es with
  | nil => rfl
  | cons e es ih =>
      have hstart := hes e (by simp)
      have hrest := ih fun f hf => hes f (by simp [hf])
      have hlength : n ≤ (replaceAll es source).length := by
        have := congrArg List.length hrest
        simp only [List.length_take] at this
        omega
      simp only [replaceAll, List.foldr_cons, replaceIn] at hrest hlength ⊢
      rw [List.append_assoc, List.take_append_of_le_length (by simp; omega), List.take_take,
        Nat.min_eq_left hstart, hrest]

end Edit

/-! ## Edit sets -/

namespace EditSet

theorem contains_iff {s : EditSet} {start rule : Nat} :
    s.contains start rule = true ↔ ∃ e ∈ s.edits, e.start = start ∧ e.rule = rule := by
  rw [contains, Edit.search_iff (by simpa using s.ordered) (by simp)]
  constructor
  · rintro ⟨i, e, _, _, he, hkey⟩
    exact ⟨e, List.mem_of_getElem? (by simpa using he), hkey⟩
  · rintro ⟨e, he, hkey⟩
    obtain ⟨i, hi, rfl⟩ := List.mem_iff_getElem.mp he
    exact ⟨i, _, Nat.zero_le _, hi, by simp [hi], hkey⟩

theorem applyFrom_eq {es : List Edit} {source : List UInt8} {cursor : Nat}
    (hbounds : ∀ e ∈ es, cursor ≤ e.start ∧ e.start ≤ e.stop ∧ e.stop ≤ source.length)
    (hapart : es.Pairwise fun e f => e.stop ≤ f.start) :
    applyFrom source cursor (source.drop cursor) es = (Edit.replaceAll es source).drop cursor := by
  induction es generalizing cursor with
  | nil => rfl
  | cons e es ih =>
      obtain ⟨hcursor, hle, hlength⟩ := hbounds e (by simp)
      obtain ⟨hbehind, hapart⟩ := List.pairwise_cons.mp hapart
      have hrest : applyFrom source e.stop (source.drop e.stop) es =
          (Edit.replaceAll es source).drop e.stop :=
        ih (fun f hf => ⟨hbehind f hf, (hbounds f (by simp [hf])).2⟩) hapart
      have hbefore : (Edit.replaceAll es source).take e.start = source.take e.start :=
        Edit.take_replaceAll (by omega) fun f hf => by have := hbehind f hf; omega
      have hafter : (source.drop cursor).drop (e.stop - cursor) = source.drop e.stop := by
        rw [List.drop_drop]
        congr 1
        omega
      simp only [applyFrom]
      rw [if_neg (by omega), hafter, hrest]
      simp only [Edit.replaceAll, List.foldr_cons, Edit.replaceIn] at hbefore ⊢
      rw [hbefore, List.append_assoc, List.append_assoc,
        List.drop_append_of_le_length (by simp; omega), List.drop_take]

theorem apply_eq {s : EditSet} {source : List UInt8}
    (hbounds : ∀ e ∈ s.edits, e.start ≤ e.stop ∧ e.stop ≤ source.length) :
    s.apply source = Edit.replaceAll s.edits source := by
  have hzero : ∀ e ∈ s.edits, 0 ≤ e.start ∧ e.start ≤ e.stop ∧ e.stop ≤ source.length :=
    fun e he => ⟨Nat.zero_le _, hbounds e he⟩
  exact applyFrom_eq hzero s.apart

/-- For edits in bounds: what is kept is in order and apart, each dropped edit starts
inside a kept one that comes no later, and looking up and applying are about what is kept.
Where no two edits share start and rule, the order in which they come does not matter. -/
theorem ofList_resolves {source : List UInt8} {es : List Edit}
    (hbounds : ∀ e ∈ es, e.start ≤ e.stop ∧ e.stop ≤ source.length) :
    (ofList es).edits.Pairwise
        (fun e f => e.start < f.start ∨ (e.start = f.start ∧ e.rule ≤ f.rule)) ∧
      (ofList es).edits.Pairwise (fun e f => e.stop ≤ f.start) ∧
      (∃ dropped, es.Perm ((ofList es).edits ++ dropped) ∧
        ∀ e ∈ dropped, ∃ f ∈ (ofList es).edits,
          (f.start < e.start ∨ (f.start = e.start ∧ f.rule ≤ e.rule)) ∧ e.start < f.stop) ∧
      (∀ start rule, (ofList es).contains start rule = true ↔
        ∃ e ∈ (ofList es).edits, e.start = start ∧ e.rule = rule) ∧
      (ofList es).apply source = Edit.replaceAll (ofList es).edits source ∧
      (es.Pairwise (fun e f => e.start ≠ f.start ∨ e.rule ≠ f.rule) → ∀ fs, fs.Perm es →
        (ofList fs).edits = (ofList es).edits ∧
          (ofList fs).apply source = (ofList es).apply source) := by
  refine ⟨(ofList es).ordered.imp Edit.le_iff.mp, (ofList es).apart, ?_, fun _ _ => contains_iff,
    ?_, ?_⟩
  · obtain ⟨dropped, hperm, hdropped⟩ :=
      Edit.exists_dropped (Edit.pairwise_le_mergeSort es) none
    refine ⟨dropped, (List.mergeSort_perm es Edit.le).symm.trans hperm, ?_⟩
    intro e he
    rcases hdropped e he with ⟨stop, hstop, _⟩ | ⟨f, hf, hle, hlt⟩
    · simp at hstop
    · exact ⟨f, hf, Edit.le_iff.mp hle, hlt⟩
  · apply apply_eq
    intro e he
    exact hbounds e (List.mem_mergeSort.mp ((Edit.keep_sublist none _).subset he))
  · intro hdistinct fs hperm
    have hedits : (ofList fs).edits = (ofList es).edits := by
      simp only [ofList, Edit.mergeSort_eq_of_perm hperm hdistinct]
    exact ⟨hedits, by rw [apply, apply, hedits]⟩

/-- An insertion, an edit that starts where it stands, one that begins inside that edit,
one that begins where it ends, and a rival of the last. -/
theorem ofList_resolves_insertion_and_rivals :
    let source : List UInt8 := [97, 98, 99, 100, 101, 102]
    let es : List Edit :=
      [⟨4, 6, "z", 2⟩, ⟨1, 4, "x", 1⟩, ⟨3, 5, "y", 0⟩, ⟨1, 1, "+", 0⟩, ⟨4, 5, "w", 3⟩]
    let kept : List Edit := [⟨1, 1, "+", 0⟩, ⟨1, 4, "x", 1⟩, ⟨4, 6, "z", 2⟩]
    (∀ e ∈ es, e.start ≤ e.stop ∧ e.stop ≤ source.length) ∧
      (ofList es).edits = kept ∧
      (∃ dropped, es.Perm (kept ++ dropped) ∧ ∀ e ∈ dropped, ∃ f ∈ kept,
        (f.start < e.start ∨ (f.start = e.start ∧ f.rule ≤ e.rule)) ∧ e.start < f.stop) ∧
      (ofList es).apply source = Edit.replaceAll kept source ∧
      ∀ fs, fs.Perm es → (ofList fs).edits = kept := by
  intro source es kept
  have hbounds : ∀ e ∈ es, e.start ≤ e.stop ∧ e.stop ≤ source.length := by decide
  have hkept : (ofList es).edits = kept := by
    simp [es, kept, ofList, List.mergeSort, Edit.le, Edit.keep]
  have hdistinct : es.Pairwise fun e f => e.start ≠ f.start ∨ e.rule ≠ f.rule := by decide
  obtain ⟨_, _, hdropped, _, happly, hperm⟩ := ofList_resolves hbounds
  rw [hkept] at hdropped happly hperm
  exact ⟨hbounds, hkept, hdropped, happly, fun fs hfs => (hperm hdistinct fs hfs).1⟩

end EditSet

end Stencil
