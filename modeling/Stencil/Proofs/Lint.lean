import Stencil.Lint
import Stencil.Proofs.Edit
import Stencil.Proofs.Match.Scan
import Stencil.Proofs.Text.Utf8

/-!
# The account of fixes

What linting with fixes leaves of a source: the diagnostics that count as
corrected are those whose rewrites have been put in, and of rewrites that overlap
the first one has been.
-/

namespace Stencil

/-! ## Findings -/

def InOrder (found : List Finding) : Prop :=
  found.Pairwise fun f g => f.rule < g.rule ∨ (f.rule = g.rule ∧ f.span.start < g.span.start)

def Finding.Stands (t : Target) (f : Finding) : Prop :=
  ∃ i j, i < j ∧ j ≤ t.size ∧ f.span = t.span i j

section

variable {source : SourceFile} {t : Target} {overlapping : Bool} {index : Nat} {rules : List Rule}

theorem mem_findingsFrom (hT : t.Tiled) (hN : t.Nested) {f : Finding}
    (hf : f ∈ findingsFrom source t overlapping index rules) :
    index ≤ f.rule ∧ f.Stands t ∧ f.diagnostic.corrected = false := by
  induction rules generalizing index with
  | nil => simp [findingsFrom] at hf
  | cons rule rules ih =>
      rw [findingsFrom] at hf
      rcases List.mem_append.mp hf with hf | hf
      · obtain ⟨a, ha, rfl⟩ := List.mem_map.mp hf
        split at ha
        · obtain ⟨_, _, hlt, hle⟩ := Matcher.lays_of_mem_alignments hT hN ha
          exact ⟨Nat.le_refl _, ⟨a.first, a.last, hlt, hle, rfl⟩, rfl⟩
        · simp at ha
      · obtain ⟨hindex, hf⟩ := ih hf
        exact ⟨by omega, hf⟩

theorem inOrder_findingsFrom (hT : t.Tiled) (hN : t.Nested) :
    InOrder (findingsFrom source t overlapping index rules) := by
  induction rules generalizing index with
  | nil => exact .nil
  | cons rule rules ih =>
      rw [InOrder, findingsFrom, List.pairwise_append]
      refine ⟨?_, ih, ?_⟩
      · rw [List.pairwise_map]
        split
        · refine (Matcher.pairwise_alignments _ t overlapping 0).imp_of_mem ?_
          intro a b ha hb hab
          obtain ⟨_, hinside, hlt, hle⟩ := Matcher.lays_of_mem_alignments hT hN ha
          exact .inr ⟨rfl, hT.offset_lt hab.1 (by omega)⟩
        · exact .nil
      · intro f hf g hg
        obtain ⟨a, _, rfl⟩ := List.mem_map.mp hf
        have hindex := (mem_findingsFrom hT hN hg).1
        exact .inl hindex

end

/-! ## Edits of findings -/

theorem Finding.edit?_eq_some_iff {f : Finding} {e : Edit} :
    f.edit? = some e ↔ f.diagnostic.replacement = some e.replacement ∧
      f.span.start = e.start ∧ f.span.stop = e.stop ∧ f.rule = e.rule := by
  obtain ⟨start, stop, replacement, rule⟩ := e
  simp only [edit?, Option.map_eq_some_iff, Edit.mk.injEq]
  constructor
  · rintro ⟨_, hreplacement, rfl, rfl, rfl, rfl⟩
    exact ⟨hreplacement, rfl, rfl, rfl⟩
  · rintro ⟨hreplacement, rfl, rfl, rfl⟩
    exact ⟨_, hreplacement, rfl, rfl, rfl, rfl⟩

theorem Finding.filterMap_edit? {fs : List Finding}
    (h : ∀ f ∈ fs, f.diagnostic.replacement.isSome = true) :
    fs.filterMap edit? = fs.map fun f =>
      ⟨f.span.start, f.span.stop, f.diagnostic.replacement.getD "", f.rule⟩ := by
  rw [← List.filterMap_eq_map]
  refine List.filterMap_congr fun f hf => ?_
  obtain ⟨replacement, hreplacement⟩ := Option.isSome_iff_exists.mp (h f hf)
  simp [edit?, hreplacement]

namespace InOrder

variable {found : List Finding}

theorem eq_of_key (horder : InOrder found) :
    ∀ f ∈ found, ∀ g ∈ found, f.span.start = g.span.start → f.rule = g.rule → f = g := by
  apply List.Pairwise.forall_of_forall_of_flip
  · intro f _ _ _
    rfl
  · refine horder.imp ?_
    intro f g h hstart hrule
    omega
  · refine horder.imp ?_
    intro f g h hstart hrule
    omega

theorem pairwise_edits (horder : InOrder found) :
    (found.filterMap Finding.edit?).Pairwise fun e f => e.start ≠ f.start ∨ e.rule ≠ f.rule := by
  rw [List.pairwise_filterMap]
  refine horder.imp ?_
  intro f g hfg e he e' he'
  obtain ⟨_, hstart, _, hrule⟩ := Finding.edit?_eq_some_iff.mp he
  obtain ⟨_, hstart', _, hrule'⟩ := Finding.edit?_eq_some_iff.mp he'
  omega

theorem pairwise_before (horder : InOrder found) :
    ((found.filterMap Finding.edit?).mergeSort Edit.le).Pairwise Edit.Before :=
  Edit.pairwise_before_mergeSort horder.pairwise_edits

end InOrder

/-! ## Kept edits -/

def keptEdits (found : List Finding) : EditSet := .ofList (found.filterMap Finding.edit?)

def Finding.isKept (found : List Finding) (f : Finding) : Bool :=
  f.diagnostic.replacement.isSome && (keptEdits found).contains f.span.start f.rule

section

variable {found : List Finding}

theorem mem_keptEdits {e : Edit} (he : e ∈ (keptEdits found).edits) :
    ∃ f ∈ found, f.edit? = some e := by
  have hmem := List.mem_mergeSort.mp ((Edit.keep_sublist none _).subset he)
  simpa using hmem

theorem isKept_iff (horder : InOrder found) {f : Finding} (hf : f ∈ found) :
    f.isKept found = true ↔ ∃ e ∈ (keptEdits found).edits, f.edit? = some e := by
  rw [Finding.isKept, Bool.and_eq_true, EditSet.contains_iff]
  constructor
  · rintro ⟨_, e, he, hstart, hrule⟩
    obtain ⟨g, hg, hedit⟩ := mem_keptEdits he
    obtain ⟨_, hstart', _, hrule'⟩ := Finding.edit?_eq_some_iff.mp hedit
    obtain rfl := horder.eq_of_key f hf g hg (by omega) (by omega)
    exact ⟨e, he, hedit⟩
  · rintro ⟨e, he, hedit⟩
    obtain ⟨hreplacement, hstart, _, hrule⟩ := Finding.edit?_eq_some_iff.mp hedit
    exact ⟨by simp [hreplacement], e, he, hstart.symm, hrule.symm⟩

/-- A rewrite is not made exactly if it starts inside one that is made and comes
first. -/
theorem isKept_eq_false_iff (horder : InOrder found) {f : Finding} (hf : f ∈ found)
    (hreplacement : f.diagnostic.replacement.isSome) :
    f.isKept found = false ↔
      ∃ g ∈ found, g.isKept found = true ∧
        (g.span.start < f.span.start ∨ (g.span.start = f.span.start ∧ g.rule < f.rule)) ∧
        f.span.start < g.span.stop := by
  obtain ⟨replacement, hreplacement⟩ := Option.isSome_iff_exists.mp hreplacement
  have hedit : f.edit? = some ⟨f.span.start, f.span.stop, replacement, f.rule⟩ :=
    Finding.edit?_eq_some_iff.mpr ⟨hreplacement, rfl, rfl, rfl⟩
  have hmem : ⟨f.span.start, f.span.stop, replacement, f.rule⟩ ∈
      (found.filterMap Finding.edit?).mergeSort Edit.le :=
    List.mem_mergeSort.mpr (List.mem_filterMap.mpr ⟨f, hf, hedit⟩)
  have hdropped := Edit.not_mem_keep_iff horder.pairwise_before hmem none
  have hkept : f.isKept found = true ↔
      ⟨f.span.start, f.span.stop, replacement, f.rule⟩ ∈ (keptEdits found).edits := by
    rw [isKept_iff horder hf, hedit]
    simp
  rw [← Bool.not_eq_true, hkept]
  refine hdropped.trans ?_
  simp only [Option.not_mem_none, false_and, exists_false, false_or]
  constructor
  · rintro ⟨e, he, hbefore, hinside⟩
    obtain ⟨g, hg, hedit'⟩ := mem_keptEdits he
    obtain ⟨_, hstart, hstop, hrule⟩ := Finding.edit?_eq_some_iff.mp hedit'
    refine ⟨g, hg, (isKept_iff horder hg).mpr ⟨e, he, hedit'⟩, ?_, ?_⟩
    · simp only [Edit.Before] at hbefore
      omega
    · omega
  · rintro ⟨g, hg, hgKept, hbefore, hinside⟩
    obtain ⟨e, he, hedit'⟩ := (isKept_iff horder hg).mp hgKept
    obtain ⟨_, hstart, hstop, hrule⟩ := Finding.edit?_eq_some_iff.mp hedit'
    refine ⟨e, he, ?_, ?_⟩
    · simp only [Edit.Before]
      omega
    · omega

theorem keptEdits_perm (horder : InOrder found) :
    (keptEdits found).edits.Perm ((found.filter (·.isKept found)).filterMap Finding.edit?) := by
  have hnodup : (found.filterMap Finding.edit?).Nodup := by
    refine horder.pairwise_edits.imp ?_
    rintro e f hne rfl
    simp at hne
  have hsorted : ((found.filterMap Finding.edit?).mergeSort Edit.le).Nodup :=
    (List.mergeSort_perm _ _).nodup_iff.mpr hnodup
  apply (List.perm_ext_iff_of_nodup ?_ ?_).mpr
  · intro e
    rw [List.mem_filterMap]
    constructor
    · intro he
      obtain ⟨f, hf, hedit⟩ := mem_keptEdits he
      have hkept := (isKept_iff horder hf).mpr ⟨e, he, hedit⟩
      exact ⟨f, List.mem_filter.mpr ⟨hf, hkept⟩, hedit⟩
    · rintro ⟨f, hf, hedit⟩
      obtain ⟨hf, hkept⟩ := List.mem_filter.mp hf
      obtain ⟨e', he', hedit'⟩ := (isKept_iff horder hf).mp hkept
      obtain rfl := Option.some.inj (hedit.symm.trans hedit')
      exact he'
  · exact hsorted.sublist (Edit.keep_sublist none _)
  · exact hnodup.sublist (List.Sublist.filterMap _ (List.filter_sublist))

end

/-! ## The content -/

theorem applyFrom_cons_of_tokens {t : Target} (hT : t.Tiled) (source : List UInt8) {e : Edit}
    (es : List Edit) {c i j : Nat} (hci : c ≤ i) (hij : i ≤ j) (hj : j ≤ t.size)
    (hstart : e.start = t.offset i) (hstop : e.stop = t.offset j) :
    EditSet.applyFrom source (t.offset c) (utf8Bytes (t.text c t.size)) (e :: es) =
      utf8Bytes (t.text c i ++ e.replacement.toList) ++
        EditSet.applyFrom source (t.offset j) (utf8Bytes (t.text j t.size)) es := by
  have hbefore : (utf8Bytes (t.text c t.size)).take (t.offset i - t.offset c) =
      utf8Bytes (t.text c i) := by
    rw [hT.text_append hci (Nat.le_trans hij hj), utf8Bytes_append, hT.offset_eq_add hci,
      Nat.add_sub_cancel_left, ← length_utf8Bytes, List.take_left]
  have hcj : c ≤ j := Nat.le_trans hci hij
  have hahead : (utf8Bytes (t.text c t.size)).drop (t.offset j - t.offset c) =
      utf8Bytes (t.text j t.size) := by
    rw [hT.text_append hcj hj, utf8Bytes_append, hT.offset_eq_add hcj, Nat.add_sub_cancel_left,
      ← length_utf8Bytes, List.drop_left]
  have hforward := hT.offset_mono hcj
  simp only [EditSet.applyFrom, hstart, hstop]
  rw [if_neg (by omega), hbefore, hahead, utf8Bytes_append]

theorem exists_applyFrom_eq_utf8Bytes {t : Target} (hT : t.Tiled) (source : List UInt8)
    {es : List Edit} (hapart : es.Pairwise fun e f => e.stop ≤ f.start)
    (hes : ∀ e ∈ es, ∃ i j, i < j ∧ j ≤ t.size ∧ e.start = t.offset i ∧ e.stop = t.offset j)
    {c : Nat} (hc : c ≤ t.size) (hbehind : ∀ e ∈ es, t.offset c ≤ e.start) :
    ∃ cs, EditSet.applyFrom source (t.offset c) (utf8Bytes (t.text c t.size)) es =
      utf8Bytes cs := by
  induction es generalizing c with
  | nil => exact ⟨_, rfl⟩
  | cons e es ih =>
      obtain ⟨i, j, hij, hj, hstart, hstop⟩ := hes e (by simp)
      obtain ⟨hnext, hapart⟩ := List.pairwise_cons.mp hapart
      have hci : c ≤ i := hT.le_of_offset_le hc (hstart ▸ hbehind e (by simp))
      obtain ⟨after, hafter⟩ := ih hapart (fun f hf => hes f (by simp [hf])) hj
        (fun f hf => hstop ▸ hnext f hf)
      refine ⟨t.text c i ++ e.replacement.toList ++ after, ?_⟩
      rw [applyFrom_cons_of_tokens hT source es hci (Nat.le_of_lt hij) hj hstart hstop, hafter,
        ← utf8Bytes_append]

/-! ## Settling -/

private theorem keptEdits_of_isEmpty {found : List Finding}
    (h : (found.filterMap Finding.edit?).isEmpty = true) :
    (keptEdits found).edits = [] ∧ ∀ f ∈ found, f.isKept found = false := by
  have hnil : found.filterMap Finding.edit? = [] := by simpa using h
  refine ⟨by simp [keptEdits, hnil, EditSet.ofList, Edit.keep], ?_⟩
  intro f hf
  have hedit := List.filterMap_eq_nil_iff.mp hnil f hf
  have hreplacement : f.diagnostic.replacement = none := by simpa [Finding.edit?] using hedit
  simp [Finding.isKept, hreplacement]

theorem fixed_settle (source : SourceFile) (fix : Bool) (found : List Finding) :
    (settle source fix found).fixed =
      if fix = true ∧ (keptEdits found).apply source.content ≠ source.content then
        some ((keptEdits found).apply source.content)
      else none := by
  dsimp only [settle]
  cases fix with
  | false => simp
  | true =>
      cases hedits : (found.filterMap Finding.edit?).isEmpty with
      | true =>
          have hempty := (keptEdits_of_isEmpty hedits).1
          rw [if_neg (by simp)]
          simp [EditSet.apply, hempty, EditSet.applyFrom]
      | false =>
          rw [if_pos (by simp), ← keptEdits]
          by_cases heq : (keptEdits found).apply source.content = source.content <;> simp [heq]

theorem diagnostics_settle (source : SourceFile) (fix : Bool) {found : List Finding}
    (hplain : ∀ f ∈ found, f.diagnostic.corrected = false) :
    (settle source fix found).diagnostics = Diagnostic.sort (found.map fun f =>
      { f.diagnostic with corrected := fix && f.isKept found }) := by
  have hsame : ∀ {corrected : Finding → Bool}, (∀ f ∈ found, corrected f = false) →
      (found.map fun f => { f.diagnostic with corrected := corrected f }) =
        found.map (·.diagnostic) := by
    intro corrected hnone
    apply List.map_congr_left
    intro f hf
    rw [hnone f hf, ← hplain f hf]
  dsimp only [settle]
  cases fix with
  | false => simp [hsame]
  | true =>
      cases hedits : (found.filterMap Finding.edit?).isEmpty with
      | true =>
          rw [if_neg (by simp)]
          simp [hsame (keptEdits_of_isEmpty hedits).2]
      | false =>
          rw [if_pos (by simp)]
          rfl

/-- Diagnostics count as corrected in a source that stays as it is exactly if edits
are made that change nothing. -/
theorem settle_idle_iff (source : SourceFile) (fix : Bool) {found : List Finding}
    (hplain : ∀ f ∈ found, f.diagnostic.corrected = false) :
    ((settle source fix found).fixed = none ∧
        ∃ d ∈ (settle source fix found).diagnostics, d.corrected = true) ↔
      fix = true ∧ (∃ f ∈ found, f.isKept found = true) ∧
        (keptEdits found).apply source.content = source.content := by
  rw [fixed_settle, diagnostics_settle source fix hplain]
  simp only [Diagnostic.sort, List.mem_mergeSort, List.mem_map]
  constructor
  · rintro ⟨hfixed, _, ⟨f, hf, rfl⟩, hcorrected⟩
    obtain ⟨rfl, hkept⟩ := Bool.and_eq_true_iff.mp hcorrected
    exact ⟨rfl, ⟨f, hf, hkept⟩, by simpa using hfixed⟩
  · rintro ⟨rfl, ⟨f, hf, hkept⟩, happly⟩
    exact ⟨by simp [happly], _, ⟨f, hf, rfl⟩, by simpa using hkept⟩

/-! ## The account -/

/-- The account of the fixes in a source.  `corrected` says which findings count as
corrected. -/
structure FixAccount (source : SourceFile) (found : List Finding) (corrected : Finding → Bool)
    (result : LintResult) : Prop where
  diagnostics_eq : result.diagnostics =
    Diagnostic.sort (found.map fun f => { f.diagnostic with corrected := corrected f })
  /-- The content is the source with the spans of the corrected findings replaced. -/
  content_eq : ∃ fixes : List Edit,
    fixes.Perm ((found.filter corrected).map fun f =>
        ⟨f.span.start, f.span.stop, f.diagnostic.replacement.getD "", f.rule⟩) ∧
      fixes.Pairwise (fun e f => e.stop ≤ f.start) ∧
      result.fixed.getD source.content = Edit.replaceAll fixes source.content
  text : ∃ cs, decode (result.fixed.getD source.content) = .ok cs
  rewritten : ∀ f ∈ found, corrected f = true → f.diagnostic.replacement.isSome = true
  apart : (found.filter corrected).Pairwise fun f g =>
    f.span.stop ≤ g.span.start ∨ g.span.stop ≤ f.span.start
  left_iff : ∀ f ∈ found, f.diagnostic.replacement.isSome = true →
    (corrected f = false ↔ ∃ g ∈ found, corrected g = true ∧
      (g.span.start < f.span.start ∨ (g.span.start = f.span.start ∧ g.rule < f.rule)) ∧
      f.span.start < g.span.stop)

theorem exists_tokenize_of_target {source : SourceFile} {t : Target} (ht : source.target = .ok t) :
    ∃ cs, source.content = utf8Bytes cs ∧ Target.tokenize (String.ofList cs) = .ok t := by
  unfold SourceFile.target at ht
  split at ht
  · simp at ht
  · rename_i cs hcs
    cases htokens : Target.tokenize (String.ofList cs) with
    | error e => simp [htokens, Except.mapError] at ht
    | ok t' =>
        simp only [htokens, Except.mapError, Except.ok.injEq] at ht
        exact ⟨cs, eq_utf8Bytes_of_decode hcs, by rw [htokens, ht]⟩

theorem target_eq_ok_iff {source : SourceFile} {t : Target} :
    source.target = .ok t ↔
      ∃ cs, source.content = utf8Bytes cs ∧ Target.tokenize (String.ofList cs) = .ok t := by
  refine ⟨exists_tokenize_of_target, ?_⟩
  rintro ⟨cs, hcontent, htokens⟩
  simp [SourceFile.target, SourceFile.text?, hcontent, decode_utf8Bytes, htokens, Except.mapError]

theorem findings_of_target {source : SourceFile} {t : Target} (ht : source.target = .ok t)
    (rules : List Rule) (overlapping : Bool) :
    t.Tiled ∧ source.content = utf8Bytes (t.text 0 t.size) ∧
      InOrder (findingsFrom source t overlapping 0 rules) ∧
      ∀ f ∈ findingsFrom source t overlapping 0 rules,
        f.Stands t ∧ f.diagnostic.corrected = false := by
  obtain ⟨cs, hcontent, htokens⟩ := exists_tokenize_of_target ht
  have hT : t.Tiled := Target.tiled_of_ofTokens? htokens
  have hN : t.Nested := Target.nested_of_ofTokens? htokens
  refine ⟨hT, ?_, inOrder_findingsFrom hT hN, fun f hf => (mem_findingsFrom hT hN hf).2⟩
  rw [hcontent, ← hT.source_eq_text, Target.source_of_ofTokens? htokens, String.toList_ofList]

theorem stands_of_mem_keptEdits {t : Target} {found : List Finding}
    (hstands : ∀ f ∈ found, f.Stands t) {e : Edit} (he : e ∈ (keptEdits found).edits) :
    ∃ i j, i < j ∧ j ≤ t.size ∧ e.start = t.offset i ∧ e.stop = t.offset j := by
  obtain ⟨f, hf, hedit⟩ := mem_keptEdits he
  obtain ⟨i, j, hij, hj, hspan⟩ := hstands f hf
  obtain ⟨_, hstart, hstop, _⟩ := Finding.edit?_eq_some_iff.mp hedit
  exact ⟨i, j, hij, hj, by rw [← hstart, hspan]; rfl, by rw [← hstop, hspan]; rfl⟩

theorem fixAccount_of_kept {source : SourceFile} {t : Target} (hT : t.Tiled)
    (hcontent : source.content = utf8Bytes (t.text 0 t.size)) {found : List Finding}
    (horder : InOrder found) (hstands : ∀ f ∈ found, f.Stands t) {result : LintResult}
    (hdiagnostics : result.diagnostics = Diagnostic.sort (found.map fun f =>
      { f.diagnostic with corrected := f.isKept found }))
    (hleft : result.fixed.getD source.content = (keptEdits found).apply source.content) :
    FixAccount source found (·.isKept found) result := by
  have hplaces : ∀ e ∈ (keptEdits found).edits, ∃ i j, i < j ∧ j ≤ t.size ∧
      e.start = t.offset i ∧ e.stop = t.offset j :=
    fun e he => stands_of_mem_keptEdits hstands he
  have hlength : source.content.length = t.offset t.size := by
    rw [hcontent, length_utf8Bytes, hT.offset_eq_byteLength]
  have hbounds : ∀ e ∈ (keptEdits found).edits,
      e.start ≤ e.stop ∧ e.stop ≤ source.content.length := by
    intro e he
    obtain ⟨i, j, hij, hj, hstart, hstop⟩ := hplaces e he
    rw [hstart, hstop, hlength]
    exact ⟨hT.offset_mono (Nat.le_of_lt hij), hT.offset_mono hj⟩
  have hperm := keptEdits_perm horder
  have hrewritten : ∀ f ∈ found, f.isKept found = true →
      f.diagnostic.replacement.isSome = true :=
    fun f _ hkept => (Bool.and_eq_true_iff.mp hkept).1
  have hspelled := Finding.filterMap_edit? fun f hf =>
    hrewritten f (List.mem_filter.mp hf).1 (List.mem_filter.mp hf).2
  refine ⟨hdiagnostics, ⟨(keptEdits found).edits, hspelled ▸ hperm, (keptEdits found).apart, ?_⟩,
    ?_, hrewritten, ?_, fun f hf => isKept_eq_false_iff horder hf⟩
  · rw [hleft, EditSet.apply_eq hbounds]
  · have hbehind : ∀ e ∈ (keptEdits found).edits, t.offset 0 ≤ e.start := by
      intro e _
      rw [hT.offset_zero]
      exact Nat.zero_le _
    obtain ⟨cs, hcs⟩ := exists_applyFrom_eq_utf8Bytes hT source.content (keptEdits found).apart
      hplaces (Nat.zero_le t.size) hbehind
    rw [hT.offset_zero, ← hcontent] at hcs
    exact ⟨cs, by rw [hleft, EditSet.apply, hcs, decode_utf8Bytes]⟩
  · have hedits : ((found.filter (·.isKept found)).filterMap Finding.edit?).Pairwise
        fun e f => e.stop ≤ f.start ∨ f.stop ≤ e.start :=
      ((keptEdits found).apart.imp .inl).perm hperm Or.symm
    rw [List.pairwise_filterMap] at hedits
    refine hedits.imp_of_mem ?_
    intro f g hf hg h
    obtain ⟨hf, hfKept⟩ := List.mem_filter.mp hf
    obtain ⟨hg, hgKept⟩ := List.mem_filter.mp hg
    obtain ⟨e, _, hedit⟩ := (isKept_iff horder hf).mp hfKept
    obtain ⟨e', _, hedit'⟩ := (isKept_iff horder hg).mp hgKept
    obtain ⟨_, hstart, hstop, _⟩ := Finding.edit?_eq_some_iff.mp hedit
    obtain ⟨_, hstart', hstop', _⟩ := Finding.edit?_eq_some_iff.mp hedit'
    rw [hstart, hstop, hstart', hstop']
    exact h e hedit e' hedit'

/-- Every source that has a target can be linted.  With fixing the result accounts
for its fixes, and without nothing is fixed. -/
theorem lintSource_fixes {source : SourceFile} {t : Target} (ht : source.target = .ok t)
    (rules : List Rule) (options : LintOptions) :
    ∃ result, lintSource source rules options = .ok result ∧
      (options.fix = true → ∃ corrected,
        FixAccount source (findingsFrom source t options.overlapping 0 rules) corrected result) ∧
      (options.fix = false →
        result.fixed = none ∧ ∀ d ∈ result.diagnostics, d.corrected = false) := by
  obtain ⟨hT, hcontent, horder, hfindings⟩ := findings_of_target ht rules options.overlapping
  obtain ⟨found, hfound⟩ : ∃ found,
      found = findingsFrom source t options.overlapping 0 rules := ⟨_, rfl⟩
  rw [← hfound] at horder hfindings
  have hdiagnostics := diagnostics_settle source options.fix fun f hf => (hfindings f hf).2
  have hfixed := fixed_settle source options.fix found
  refine ⟨settle source options.fix found, by rw [lintSource, ht, hfound], ?_, ?_⟩
  · intro hfix
    rw [← hfound]
    simp only [hfix, Bool.true_and, true_and] at hdiagnostics hfixed ⊢
    refine ⟨_, fixAccount_of_kept hT hcontent horder (fun f hf => (hfindings f hf).1)
      hdiagnostics ?_⟩
    by_cases heq : (keptEdits found).apply source.content = source.content <;> simp [hfixed, heq]
  · intro hfix
    refine ⟨by rw [hfixed]; simp [hfix], ?_⟩
    intro d hd
    rw [hdiagnostics, Diagnostic.sort, List.mem_mergeSort] at hd
    obtain ⟨f, _, rfl⟩ := List.mem_map.mp hd
    simp [hfix]

/-- Both rules ask for all three calls, and the outer call holds the inner one.  The earlier
rule has the outer call and the last one. -/
theorem lintSource_fixes_nested_calls :
    ∃ rules t, Rule.compileAll [
        { name := "first", pattern := "f(:[x])", rewrite := some "g(:[x])" },
        { name := "second", pattern := "f(:[x])", rewrite := some "h(:[x])" }] = .ok rules ∧
      SourceFile.target ⟨"a.go", utf8Bytes "f(f(1)) f(2)".toList⟩ = .ok t ∧
      (findingsFrom ⟨"a.go", utf8Bytes "f(f(1)) f(2)".toList⟩ t true 0 rules).map
          (fun f => (f.rule, f.span)) =
        [(0, ⟨0, 7⟩), (0, ⟨2, 6⟩), (0, ⟨8, 12⟩), (1, ⟨0, 7⟩), (1, ⟨2, 6⟩), (1, ⟨8, 12⟩)] ∧
      ∃ result,
        lintSource ⟨"a.go", utf8Bytes "f(f(1)) f(2)".toList⟩ rules ⟨true, true⟩ = .ok result ∧
          result.fixed = some (utf8Bytes "g(f(1)) g(2)".toList) ∧
          result.diagnostics.map (fun d => (d.location.column, d.rule, d.corrected)) =
            [(0, "first", true), (0, "second", false), (2, "first", false),
              (2, "second", false), (8, "first", true), (8, "second", false)] ∧
          ∃ corrected, FixAccount ⟨"a.go", utf8Bytes "f(f(1)) f(2)".toList⟩
            (findingsFrom ⟨"a.go", utf8Bytes "f(f(1)) f(2)".toList⟩ t true 0 rules) corrected
            result := by
  have hfound : (do
        let rules ← (Rule.compileAll [
          { name := "first", pattern := "f(:[x])", rewrite := some "g(:[x])" },
          { name := "second", pattern := "f(:[x])", rewrite := some "h(:[x])" }]).toOption
        let t ← (SourceFile.target ⟨"a.go", utf8Bytes "f(f(1)) f(2)".toList⟩).toOption
        let found := findingsFrom ⟨"a.go", utf8Bytes "f(f(1)) f(2)".toList⟩ t true 0 rules
        return decide (found.map (fun f => (f.rule, f.span)) =
            [(0, ⟨0, 7⟩), (0, ⟨2, 6⟩), (0, ⟨8, 12⟩), (1, ⟨0, 7⟩), (1, ⟨2, 6⟩), (1, ⟨8, 12⟩)] ∧
          found.filterMap Finding.edit? =
            [⟨0, 7, "g(f(1))", 0⟩, ⟨2, 6, "g(1)", 0⟩, ⟨8, 12, "g(2)", 0⟩,
              ⟨0, 7, "h(f(1))", 1⟩, ⟨2, 6, "h(1)", 1⟩, ⟨8, 12, "h(2)", 1⟩] ∧
          (∀ f ∈ found, f.diagnostic.path = "a.go" ∧ f.diagnostic.location.line = 1) ∧
          found.map (fun f => (f.diagnostic.location.column, f.diagnostic.rule,
              f.diagnostic.replacement.isSome &&
                [(0, 0), (8, 0)].contains (f.span.start, f.rule))) =
            [(0, "first", true), (2, "first", false), (8, "first", true),
              (0, "second", false), (2, "second", false), (8, "second", false)])) =
      some true := by
    decide +kernel
  obtain ⟨rules, t, hrules, ht, hfound⟩ := exists_ok_of_bind_toOption hfound
  obtain ⟨result, hresult, hfixes, _⟩ := lintSource_fixes ht rules ⟨true, true⟩
  obtain ⟨_, _, _, hfindings⟩ := findings_of_target ht rules true
  have hsettle := hresult
  rw [lintSource, ht] at hsettle
  dsimp only at hsettle hfixes
  refine ⟨rules, t, hrules, ht, ?_⟩
  generalize findingsFrom ⟨"a.go", utf8Bytes "f(f(1)) f(2)".toList⟩ t true 0 rules = found at *
  obtain ⟨hspans, hedits, hplace, hmarks⟩ := of_decide_eq_true hfound
  have hkept : (keptEdits found).edits = [⟨0, 7, "g(f(1))", 0⟩, ⟨8, 12, "g(2)", 0⟩] := by
    rw [keptEdits, hedits]
    simp [EditSet.ofList, List.mergeSort, Edit.le, Edit.keep]
  have hcontains : ∀ start rule, (keptEdits found).contains start rule =
      [(0, 0), (8, 0)].contains (start, rule) := by
    intro start rule
    rw [Bool.eq_iff_iff, EditSet.contains_iff, hkept]
    simp only [List.contains_iff_mem, List.mem_cons, List.not_mem_nil, or_false, exists_eq_or_imp,
      exists_eq_left, Prod.mk.injEq]
    omega
  refine ⟨hspans, result, hresult, ?_, ?_, hfixes rfl⟩
  · rw [← Except.ok.inj hsettle, fixed_settle, EditSet.apply, hkept, if_pos (by decide +kernel)]
    decide +kernel
  · rw [← Except.ok.inj hsettle, diagnostics_settle _ true fun f hf => (hfindings f hf).2,
      Diagnostic.sort, List.map_mergeSort (s := fun a b => decide (a.1 ≤ b.1))]
    · simp only [List.map_map, Function.comp_def, Finding.isKept, hcontains, Bool.true_and, hmarks]
      simp [List.mergeSort]
    · simp only [List.forall_mem_map]
      intro f hf g hg
      simp [Diagnostic.le, hplace f hf, hplace g hg]

end Stencil
