import Mathlib.Data.List.Sort
import Stencil.Proofs.Lint
import Stencil.Proofs.Source

/-!
# The diagnostics of a source

Linting reports each match of each rule that is for the source, and nothing else.  The
diagnostics are sorted by line and column and otherwise stay in the order of the rules,
so they come in the order of the matches in the source.
-/

namespace Stencil

/-! ## Stable sorting -/

theorem filter_mergeSort {α : Type} {le : α → α → Bool}
    (htrans : ∀ a b c, le a b = true → le b c = true → le a c = true)
    (htotal : ∀ a b, (le a b || le b a) = true) {p : α → Bool} {l : List α}
    (h : (l.filter p).Pairwise fun a b => le a b = true) :
    (l.mergeSort le).filter p = l.filter p := by
  have hsub : (l.filter p).Sublist ((l.mergeSort le).filter p) := by
    simpa using (List.sublist_mergeSort htrans htotal h List.filter_sublist).filter p
  exact (hsub.eq_of_length ((List.mergeSort_perm l le).filter p).length_eq.symm).symm

theorem mem_iff_of_filter {α : Type} {le : α → α → Bool} (hrefl : ∀ a, le a a = true)
    {l l' : List α} (hfilter : ∀ a, l.filter (fun b => le a b && le b a) =
      l'.filter (fun b => le a b && le b a)) (a : α) : a ∈ l ↔ a ∈ l' := by
  have hclass : a ∈ l.filter (fun b => le a b && le b a) ↔
      a ∈ l'.filter (fun b => le a b && le b a) := by rw [hfilter a]
  simpa [List.mem_filter, hrefl] using hclass

/-- A list in order is made up of its classes of elements that are in order both ways. -/
theorem eq_of_pairwise_of_filter {α : Type} {le : α → α → Bool}
    (hrefl : ∀ a, le a a = true) {l l' : List α}
    (h : l.Pairwise fun a b => le a b = true) (h' : l'.Pairwise fun a b => le a b = true)
    (hfilter : ∀ a, l.filter (fun b => le a b && le b a) =
      l'.filter (fun b => le a b && le b a)) : l = l' := by
  have hmem := mem_iff_of_filter hrefl hfilter
  induction l generalizing l' with
  | nil =>
      refine (List.eq_nil_iff_forall_not_mem.mpr fun a ha => ?_).symm
      simpa using (hmem a).mpr ha
  | cons a l ih =>
      cases l' with
      | nil => simpa using (hmem a).mp (by simp)
      | cons b l' =>
          obtain ⟨ha, hl⟩ := List.pairwise_cons.mp h
          obtain ⟨hb, hl'⟩ := List.pairwise_cons.mp h'
          -- each head is in the other list, so the heads are of one class
          have hab : le a b = true := by
            rcases List.mem_cons.mp ((hmem b).mpr (by simp)) with rfl | hmem
            · exact hrefl b
            · exact ha b hmem
          have hba : le b a = true := by
            rcases List.mem_cons.mp ((hmem a).mp (by simp)) with rfl | hmem
            · exact hrefl a
            · exact hb a hmem
          obtain rfl : a = b := by
            have hclass := hfilter a
            simp only [List.filter_cons, hrefl, hab, hba, Bool.and_self, if_true] at hclass
            exact (List.cons.inj hclass).1
          have hrest : ∀ c, l.filter (fun b => le c b && le b c) =
              l'.filter (fun b => le c b && le b c) := by
            intro c
            have hclass := hfilter c
            rw [List.filter_cons, List.filter_cons] at hclass
            split at hclass
            · exact (List.cons.inj hclass).2
            · exact hclass
          rw [ih hl hl' hrest (mem_iff_of_filter hrefl hrest)]

/-! ## Hits -/

structure Hit where
  index : Nat
  rule : Rule
  alignment : Alignment

namespace Hit

def start (t : Target) (h : Hit) : Nat := t.offset h.alignment.first

def found (t : Target) (h : Hit) : Match := h.alignment.toMatch t

def finding (source : SourceFile) (t : Target) (h : Hit) : Finding :=
  .ofAlignment source t h.index h.rule h.alignment

def diagnostic (source : SourceFile) (t : Target) (corrected : Bool) (h : Hit) : Diagnostic :=
  { (h.finding source t).diagnostic with corrected }

def Within (t : Target) (h : Hit) : Prop :=
  h.alignment.first < h.alignment.last ∧ h.alignment.last ≤ t.size

def startLe (t : Target) (h h' : Hit) : Bool := h.start t ≤ h'.start t

end Hit

def hitsFrom (path : String) (t : Target) (overlapping : Bool) (index : Nat) (rules : List Rule) :
    List Hit :=
  (rules.zipIdx index).flatMap fun (rule, n) =>
    (if rule.appliesTo path then rule.matcher.alignments t overlapping 0 else []).map
      (Hit.mk n rule)

section

variable {source : SourceFile} {t : Target} {overlapping : Bool} {rules : List Rule}

theorem findingsFrom_eq (source : SourceFile) (t : Target) (overlapping : Bool) (index : Nat)
    (rules : List Rule) :
    findingsFrom source t overlapping index rules =
      (hitsFrom source.path t overlapping index rules).map (Hit.finding source t) := by
  induction rules generalizing index with
  | nil => rfl
  | cons rule rules ih =>
      simp only [findingsFrom, ih, hitsFrom, List.zipIdx_cons, List.flatMap_cons, List.map_append,
        List.map_map]
      rfl

theorem mem_hits {h : Hit} :
    h ∈ hitsFrom source.path t overlapping 0 rules ↔
      rules[h.index]? = some h.rule ∧ h.rule.appliesTo source.path = true ∧
        h.alignment ∈ h.rule.matcher.alignments t overlapping 0 := by
  obtain ⟨index, rule, a⟩ := h
  simp only [hitsFrom, List.mem_flatMap, List.mem_map, Prod.exists, List.mem_zipIdx_iff_getElem?,
    Hit.mk.injEq]
  constructor
  · rintro ⟨rule, n, hrule, a, ha, rfl, rfl, rfl⟩
    split at ha
    · exact ⟨hrule, ‹_›, ha⟩
    · simp at ha
  · rintro ⟨hrule, happlies, ha⟩
    exact ⟨rule, index, hrule, a, by rwa [if_pos happlies], rfl, rfl, rfl⟩

theorem within_of_mem_hits (hT : t.Tiled) (hN : t.Nested) {h : Hit}
    (hmem : h ∈ hitsFrom source.path t overlapping 0 rules) : h.Within t :=
  (Matcher.lays_of_mem_alignments hT hN (mem_hits.mp hmem).2.2).2.2

end

/-! ## The order of hits -/

section

variable {source : SourceFile} {t : Target} {found : List Hit}

theorem startLe_trans (t : Target) :
    ∀ a b c, Hit.startLe t a b = true → Hit.startLe t b c = true → Hit.startLe t a c = true := by
  simp only [Hit.startLe, decide_eq_true_eq]
  omega

theorem startLe_total (t : Target) : ∀ a b, (Hit.startLe t a b || Hit.startLe t b a) = true := by
  simp only [Hit.startLe, Bool.or_eq_true, decide_eq_true_eq]
  omega

theorem pairwise_sorted (horder : InOrder (found.map (Hit.finding source t))) :
    (found.mergeSort (Hit.startLe t)).Pairwise fun h h' =>
      h.start t < h'.start t ∨ h.start t = h'.start t ∧ h.index < h'.index := by
  rw [InOrder, List.pairwise_map] at horder
  rw [List.pairwise_iff_forall_sublist]
  intro h h' hsub
  have hle : h.start t ≤ h'.start t := by
    have hsorted := List.pairwise_mergeSort (startLe_trans t) (startLe_total t) found
    simpa [Hit.startLe] using List.pairwise_iff_forall_sublist.mp hsorted hsub
  rcases Nat.lt_or_eq_of_le hle with hlt | heq
  · exact .inl hlt
  · have hfilter : (found.mergeSort (Hit.startLe t)).filter (·.start t == h.start t) =
        found.filter (·.start t == h.start t) := by
      refine filter_mergeSort (startLe_trans t) (startLe_total t) ?_
      refine List.pairwise_of_forall_mem_list fun a ha b hb => ?_
      have ha := (List.mem_filter.mp ha).2
      have hb := (List.mem_filter.mp hb).2
      simp only [beq_iff_eq] at ha hb
      simp [Hit.startLe, ha, hb]
    have hpair := hsub.filter (·.start t == h.start t)
    simp only [List.filter_cons, beq_self_eq_true, ← heq, if_true, List.filter_nil, hfilter]
      at hpair
    have hbefore : h.index < h'.index ∨ h.index = h'.index ∧ h.start t < h'.start t :=
      List.pairwise_iff_forall_sublist.mp horder (hpair.trans List.filter_sublist)
    omega

theorem Diagnostic.le_iff_path {d e : Diagnostic} :
    d.le e = true ↔
      d.path < e.path ∨ d.path = e.path ∧ ¬ e.location.Before d.location := by
  simp only [le, Bool.or_eq_true, Bool.and_eq_true, decide_eq_true_eq, beq_iff_eq, Location.Before]
  refine or_congr_right (and_congr_right fun _ => ?_)
  omega

theorem Diagnostic.le_iff {d e : Diagnostic} (hpath : d.path = e.path) :
    d.le e = true ↔ ¬ e.location.Before d.location := by
  simp only [le_iff_path, hpath, String.lt_irrefl, false_or, true_and]

theorem location_before_of_lt (hT : t.Tiled)
    (hcontent : source.content = utf8Bytes (t.text 0 t.size)) {i j : Nat} (hij : i < j)
    (hj : j ≤ t.size) :
    (source.location (t.offset i)).Before (source.location (t.offset j)) := by
  have hle := Nat.le_of_lt hij
  rw [hT.text_append (Nat.zero_le i) (Nat.le_trans hle hj), hT.text_append hle hj] at hcontent
  have hbefore := SourceFile.location_before hcontent (hT.text_ne_nil_of_lt hij (by omega))
  rwa [← hT.offset_eq_byteLength, ← hT.offset_eq_add hle] at hbefore

/-- Line and column order the starts of matches as the offsets do. -/
theorem startLe_eq_le (hT : t.Tiled) (hcontent : source.content = utf8Bytes (t.text 0 t.size))
    {h h' : Hit} (hwithin : h.Within t) (hwithin' : h'.Within t) (corrected corrected' : Bool) :
    h.startLe t h' =
      (h.diagnostic source t corrected).le (h'.diagnostic source t corrected') := by
  obtain ⟨hlt, hle⟩ := hwithin
  obtain ⟨hlt', hle'⟩ := hwithin'
  have hpath : (h.diagnostic source t corrected).path =
    (h'.diagnostic source t corrected').path := rfl
  rw [Bool.eq_iff_iff, Diagnostic.le_iff hpath]
  change _ ↔ ¬ (source.location (t.offset h'.alignment.first)).Before
    (source.location (t.offset h.alignment.first))
  rw [Hit.startLe, decide_eq_true_eq, Hit.start, Hit.start]
  rcases Nat.lt_trichotomy h.alignment.first h'.alignment.first with hbefore | heq | hbehind
  · have hlocation := location_before_of_lt hT hcontent hbefore (by omega)
    have hoffset := hT.offset_lt hbefore (by omega)
    simp only [Location.Before] at hlocation ⊢
    omega
  · simp [heq, Location.Before]
  · have hlocation := location_before_of_lt hT hcontent hbehind (by omega)
    have hoffset := hT.offset_lt hbehind (by omega)
    simp only [hlocation, not_true_eq_false, iff_false]
    omega

theorem sort_diagnostics (hT : t.Tiled)
    (hcontent : source.content = utf8Bytes (t.text 0 t.size))
    (hwithin : ∀ h ∈ found, h.Within t) (corrected : Hit → Bool) :
    Diagnostic.sort (found.map fun h => h.diagnostic source t (corrected h)) =
      (found.mergeSort (Hit.startLe t)).map fun h => h.diagnostic source t (corrected h) := by
  refine (List.map_mergeSort fun h hh h' hh' => ?_).symm
  exact startLe_eq_le hT hcontent (hwithin h hh) (hwithin h' hh') _ _

end

/-! ## Reports -/

structure Diagnostic.Tells (source : SourceFile) (r : Rule) (m : Match) (d : Diagnostic) :
    Prop where
  path : d.path = source.path
  location : d.location = source.location m.span.start
  severity : d.severity = r.severity
  rule : d.rule = r.name
  message : d.message = r.message
  matched : utf8Bytes d.matched.toList =
    (source.content.drop m.span.start).take (m.span.stop - m.span.start)
  captures : d.captures = m.bindings
  replacement : d.replacement = r.template.bind fun template =>
    (template.fill m.bindings).toOption

/-- The diagnostics tell one by one of the matches of the rules that are for the source,
in the order of their starts and then of the rules.  A match stands with the index of its
rule. -/
structure Reports (source : SourceFile) (t : Target) (overlapping : Bool) (rules : List Rule)
    (reports : List (Nat × Match)) (diagnostics : List Diagnostic) : Prop where
  mem_iff : ∀ n m, (n, m) ∈ reports ↔ ∃ rule, rules[n]? = some rule ∧
    rule.appliesTo source.path = true ∧ m ∈ rule.matcher.findAll t overlapping
  ordered : reports.Pairwise fun (n, m) (n', m') =>
    m.span.start < m'.span.start ∨ m.span.start = m'.span.start ∧ n < n'
  tells : List.Forall₂
    (fun (n, m) d => ∃ rule, rules[n]? = some rule ∧ d.Tells source rule m) reports diagnostics

section

variable {source : SourceFile} {t : Target} {overlapping : Bool} {rules : List Rule}

theorem Hit.tells (hT : t.Tiled) (hcontent : source.content = utf8Bytes (t.text 0 t.size))
    {h : Hit} (hwithin : h.Within t) (corrected : Bool) :
    (h.diagnostic source t corrected).Tells source h.rule (h.found t) where
  path := rfl
  location := rfl
  severity := rfl
  rule := rfl
  message := rfl
  captures := rfl
  matched := by
    have hle := Nat.le_of_lt hwithin.1
    have hfirst := Nat.le_trans hle hwithin.2
    rw [hT.text_append (Nat.zero_le _) hfirst, hT.text_append hle hwithin.2] at hcontent
    change utf8Bytes (String.ofList (t.text h.alignment.first h.alignment.last)).toList =
      (source.content.drop (t.offset h.alignment.first)).take
        (t.offset h.alignment.last - t.offset h.alignment.first)
    rw [hcontent, String.toList_ofList, utf8Bytes_append, utf8Bytes_append,
      hT.offset_eq_add hle, Nat.add_sub_cancel_left, hT.offset_eq_byteLength,
      ← length_utf8Bytes, ← length_utf8Bytes, List.drop_left, List.take_left]
  replacement := by
    dsimp only [Hit.diagnostic, Hit.finding, Finding.ofAlignment, Hit.found]
    cases h.rule.template with
    | none => rfl
    | some template =>
        simp only [Option.map_some, Option.bind_some]
        cases template.fill (h.alignment.toMatch t).bindings <;> rfl

theorem Reports.of_rule (hT : t.Tiled) {reports : List (Nat × Match)}
    {diagnostics : List Diagnostic} (h : Reports source t overlapping rules reports diagnostics)
    {n : Nat} {rule : Rule} (hrule : rules[n]? = some rule) :
    (reports.filter (·.1 == n)).map (·.2) =
      if rule.appliesTo source.path then rule.matcher.findAll t overlapping else [] := by
  let before : Match → Match → Prop := fun m m' => m.span.start < m'.span.start
  have hirrefl : Std.Irrefl before := ⟨fun _ => Nat.lt_irrefl _⟩
  have hantisymm : Std.Antisymm before := ⟨fun _ _ hlt hlt' => absurd hlt (Nat.lt_asymm hlt')⟩
  refine List.Pairwise.eq_of_mem_iff (r := before) ?_ ?_ fun m => ?_
  · rw [List.pairwise_map]
    refine (h.ordered.filter _).imp_of_mem fun ha hb hab => ?_
    have ha := beq_iff_eq.mp (List.mem_filter.mp ha).2
    have hb := beq_iff_eq.mp (List.mem_filter.mp hb).2
    rcases hab with hlt | ⟨_, hlt⟩
    · exact hlt
    · omega
  · split
    · exact rule.matcher.pairwise_start_findAll hT overlapping
    · exact .nil
  · simp only [List.mem_map, List.mem_filter, beq_iff_eq, Prod.exists]
    constructor
    · rintro ⟨n', m, ⟨hmem, rfl⟩, rfl⟩
      obtain ⟨rule', hrule', happlies, hm⟩ := (h.mem_iff n' m).mp hmem
      obtain rfl : rule' = rule := Option.some.inj (hrule'.symm.trans hrule)
      rwa [if_pos happlies]
    · intro hm
      split at hm
      · exact ⟨n, m, ⟨(h.mem_iff n m).mpr ⟨rule, hrule, ‹_›, hm⟩, rfl⟩, rfl⟩
      · simp at hm

theorem reports_of_hits (hT : t.Tiled) (hcontent : source.content = utf8Bytes (t.text 0 t.size))
    {found : List Hit} (hfound : found = hitsFrom source.path t overlapping 0 rules)
    (horder : InOrder (found.map (Hit.finding source t)))
    (hwithin : ∀ h ∈ found, h.Within t) (corrected : Hit → Bool) :
    Reports source t overlapping rules
      ((found.mergeSort (Hit.startLe t)).map fun h => (h.index, h.found t))
      (Diagnostic.sort (found.map fun h => h.diagnostic source t (corrected h))) where
  mem_iff n m := by
    simp only [List.mem_map, List.mem_mergeSort, Prod.mk.injEq]
    constructor
    · rintro ⟨h, hmem, rfl, rfl⟩
      obtain ⟨hrule, happlies, ha⟩ := mem_hits.mp (hfound ▸ hmem)
      exact ⟨h.rule, hrule, happlies, List.mem_map_of_mem ha⟩
    · rintro ⟨rule, hrule, happlies, hm⟩
      obtain ⟨a, ha, rfl⟩ := List.mem_map.mp hm
      exact ⟨⟨n, rule, a⟩, hfound ▸ mem_hits.mpr ⟨hrule, happlies, ha⟩, rfl, rfl⟩
  ordered := by
    rw [List.pairwise_map]
    exact pairwise_sorted horder
  tells := by
    rw [sort_diagnostics hT hcontent hwithin, List.forall₂_map_left_iff, List.forall₂_map_right_iff,
      List.forall₂_same]
    intro h hmem
    have hmem := List.mem_mergeSort.mp hmem
    exact ⟨h.rule, (mem_hits.mp (hfound ▸ hmem)).1, Hit.tells hT hcontent (hwithin h hmem) _⟩

end

/-! ## Diagnostics of several sources -/

namespace Diagnostic

theorem le_trans (d e f : Diagnostic) : d.le e = true → e.le f = true → d.le f = true := by
  intro hde hef
  rw [le_iff_path] at hde hef ⊢
  rcases hde with hde | ⟨hde, hbefore⟩
  · rcases hef with hef | ⟨hef, _⟩
    · exact .inl (String.lt_trans hde hef)
    · exact .inl (hef ▸ hde)
  · rw [hde]
    refine hef.imp_right fun ⟨hef, hbefore'⟩ => ⟨hef, ?_⟩
    simp only [Location.Before] at hbefore hbefore' ⊢
    omega

theorem le_total (d e : Diagnostic) : (d.le e || e.le d) = true := by
  rw [Bool.or_eq_true, le_iff_path, le_iff_path]
  by_cases hde : d.path < e.path
  · exact .inl (.inl hde)
  · by_cases hed : e.path < d.path
    · exact .inr (.inl hed)
    · have hpath : d.path = e.path := String.le_antisymm hed hde
      simp only [hpath, String.lt_irrefl, true_and, false_or, Location.Before]
      omega

theorem le_refl (d : Diagnostic) : d.le d = true := by
  have h := Diagnostic.le_total d d
  rwa [Bool.or_self] at h

theorem path_eq_of_le {d e : Diagnostic} (hde : d.le e = true) (hed : e.le d = true) :
    d.path = e.path := by
  rw [le_iff_path] at hde hed
  rcases hde with hde | ⟨hpath, _⟩
  · rcases hed with hed | ⟨hpath, _⟩
    · exact absurd hed (String.lt_asymm hde)
    · exact hpath.symm
  · exact hpath

theorem filter_sort (ds : List Diagnostic) (d : Diagnostic) :
    (sort ds).filter (fun e => d.le e && e.le d) = ds.filter fun e => d.le e && e.le d := by
  refine filter_mergeSort Diagnostic.le_trans Diagnostic.le_total ?_
  refine List.pairwise_of_forall_mem_list fun a ha b hb => ?_
  have hda := (Bool.and_eq_true_iff.mp (List.mem_filter.mp ha).2).2
  have hdb := (Bool.and_eq_true_iff.mp (List.mem_filter.mp hb).2).1
  exact Diagnostic.le_trans _ _ _ hda hdb

theorem sort_flatMap_of_perm {files files' : List String} (hperm : files'.Perm files)
    {found : String → List Diagnostic} (hpath : ∀ path, ∀ d ∈ found path, d.path = path) :
    sort (files'.flatMap found) = sort (files.flatMap found) := by
  have hsorted : ∀ ds, (sort ds).Pairwise fun d e => d.le e = true := fun ds =>
    List.pairwise_mergeSort Diagnostic.le_trans Diagnostic.le_total ds
  refine eq_of_pairwise_of_filter le_refl (hsorted _) (hsorted _) fun d => ?_
  -- only the diagnostics of one path are in the class, and the path comes equally often
  have hclass : ∀ paths : List String,
      (paths.flatMap found).filter (fun e => d.le e && e.le d) =
        (List.replicate (paths.count d.path) d.path).flatMap fun path =>
          (found path).filter fun e => d.le e && e.le d := by
    intro paths
    rw [List.filter_flatMap, ← List.filter_beq]
    induction paths with
    | nil => rfl
    | cons path paths ih =>
        rw [List.flatMap_cons, List.filter_cons, ih]
        split
        · rw [List.flatMap_cons]
        · rename_i hne
          have hnone : (found path).filter (fun e => d.le e && e.le d) = [] := by
            refine List.filter_eq_nil_iff.mpr fun e he hboth => hne ?_
            obtain ⟨hde, hed⟩ := Bool.and_eq_true_iff.mp hboth
            rw [path_eq_of_le hde hed, hpath path e he, beq_self_eq_true]
          rw [hnone, List.nil_append]
  rw [filter_sort, filter_sort, hclass, hclass, hperm.count_eq]

end Diagnostic

/-- Every source that has a target is reported on completely and in order, and what a
rule reports is the same whatever other rules there are. -/
theorem lintSource_reports {source : SourceFile} {t : Target} (ht : source.target = .ok t)
    (rules : List Rule) (options : LintOptions) :
    ∃ result reports, lintSource source rules options = .ok result ∧
      Reports source t options.overlapping rules reports result.diagnostics ∧
      (∀ n rule, rules[n]? = some rule → (reports.filter (·.1 == n)).map (·.2) =
        if rule.appliesTo source.path then rule.matcher.findAll t options.overlapping else []) ∧
      ∀ rules' reports' diagnostics',
        Reports source t options.overlapping rules' reports' diagnostics' →
          ∀ n n' rule, rules[n]? = some rule → rules'[n']? = some rule →
            (reports.filter (·.1 == n)).map (·.2) = (reports'.filter (·.1 == n')).map (·.2) := by
  obtain ⟨hT, hcontent, horder, hfindings⟩ := findings_of_target ht rules options.overlapping
  obtain ⟨_, _, htokens⟩ := exists_tokenize_of_target ht
  have hN : t.Nested := Target.nested_of_ofTokens? htokens
  obtain ⟨found, hfound⟩ : ∃ found,
      found = hitsFrom source.path t options.overlapping 0 rules := ⟨_, rfl⟩
  have hfindingsFrom := findingsFrom_eq source t options.overlapping 0 rules
  rw [← hfound] at hfindingsFrom
  rw [hfindingsFrom] at horder hfindings
  have hwithin : ∀ h ∈ found, h.Within t := fun h hh => within_of_mem_hits hT hN (hfound ▸ hh)
  have hreports : Reports source t options.overlapping rules
      ((found.mergeSort (Hit.startLe t)).map fun h => (h.index, h.found t))
      (settle source options.fix (found.map (Hit.finding source t))).diagnostics := by
    rw [diagnostics_settle source options.fix fun f hf => (hfindings f hf).2, List.map_map]
    exact reports_of_hits hT hcontent hfound horder hwithin _
  refine ⟨_, _, by simp only [lintSource, ht, hfindingsFrom], hreports,
    fun n rule => hreports.of_rule hT, ?_⟩
  intro rules' reports' diagnostics' hreports' n n' rule hn hn'
  rw [hreports.of_rule hT hn, hreports'.of_rule hT hn']

/-- Both rules ask for all three calls, and the characters before them have two bytes. -/
theorem lintSource_reports_two_lines :
    ∃ rules t, Rule.compileAll [
        { name := "first", pattern := "f(:[x])" },
        { name := "second", pattern := "f(:[y])", rewrite := some "g(:[y])" }] = .ok rules ∧
      SourceFile.target ⟨"a.go", utf8Bytes "é f(f(é))\r\nf(2)\n".toList⟩ = .ok t ∧
      rules.map (fun rule => (rule.matcher.findAll t true).map (·.span)) =
        [[⟨3, 11⟩, ⟨5, 10⟩, ⟨13, 17⟩], [⟨3, 11⟩, ⟨5, 10⟩, ⟨13, 17⟩]] ∧
      [3, 5, 13].map (SourceFile.location ⟨"a.go", utf8Bytes "é f(f(é))\r\nf(2)\n".toList⟩) =
        [⟨1, 2⟩, ⟨1, 4⟩, ⟨2, 0⟩] ∧
      ∃ result reports,
        lintSource ⟨"a.go", utf8Bytes "é f(f(é))\r\nf(2)\n".toList⟩ rules ⟨true, true⟩ =
            .ok result ∧
          result.diagnostics.map (fun d =>
              (d.location, d.rule, d.matched, d.captures, d.replacement)) =
            [(⟨1, 2⟩, "first", "f(f(é))", ⟨[("x", "f(é)")]⟩, none),
              (⟨1, 2⟩, "second", "f(f(é))", ⟨[("y", "f(é)")]⟩, some "g(f(é))"),
              (⟨1, 4⟩, "first", "f(é)", ⟨[("x", "é")]⟩, none),
              (⟨1, 4⟩, "second", "f(é)", ⟨[("y", "é")]⟩, some "g(é)"),
              (⟨2, 0⟩, "first", "f(2)", ⟨[("x", "2")]⟩, none),
              (⟨2, 0⟩, "second", "f(2)", ⟨[("y", "2")]⟩, some "g(2)")] ∧
          Reports ⟨"a.go", utf8Bytes "é f(f(é))\r\nf(2)\n".toList⟩ t true rules reports
            result.diagnostics := by
  have hfound : (do
        let rules ← (Rule.compileAll [
          { name := "first", pattern := "f(:[x])" },
          { name := "second", pattern := "f(:[y])", rewrite := some "g(:[y])" }]).toOption
        let t ← (SourceFile.target ⟨"a.go", utf8Bytes "é f(f(é))\r\nf(2)\n".toList⟩).toOption
        let found := findingsFrom ⟨"a.go", utf8Bytes "é f(f(é))\r\nf(2)\n".toList⟩ t true 0 rules
        return decide (rules.map (fun rule => (rule.matcher.findAll t true).map (·.span)) =
            [[⟨3, 11⟩, ⟨5, 10⟩, ⟨13, 17⟩], [⟨3, 11⟩, ⟨5, 10⟩, ⟨13, 17⟩]] ∧
          (∀ f ∈ found, f.diagnostic.path = "a.go") ∧
          found.map (fun f => (f.diagnostic.location, f.diagnostic.rule, f.diagnostic.matched,
              f.diagnostic.captures, f.diagnostic.replacement)) =
            [(⟨1, 2⟩, "first", "f(f(é))", ⟨[("x", "f(é)")]⟩, none),
              (⟨1, 4⟩, "first", "f(é)", ⟨[("x", "é")]⟩, none),
              (⟨2, 0⟩, "first", "f(2)", ⟨[("x", "2")]⟩, none),
              (⟨1, 2⟩, "second", "f(f(é))", ⟨[("y", "f(é)")]⟩, some "g(f(é))"),
              (⟨1, 4⟩, "second", "f(é)", ⟨[("y", "é")]⟩, some "g(é)"),
              (⟨2, 0⟩, "second", "f(2)", ⟨[("y", "2")]⟩, some "g(2)")])) =
      some true := by
    decide +kernel
  obtain ⟨rules, t, hrules, ht, hfound⟩ := exists_ok_of_bind_toOption hfound
  obtain ⟨hspans, hpath, htold⟩ := of_decide_eq_true hfound
  obtain ⟨result, reports, hresult, hreports, _⟩ := lintSource_reports ht rules ⟨true, true⟩
  obtain ⟨_, _, _, hfindings⟩ := findings_of_target ht rules true
  have hsettle := hresult
  rw [lintSource, ht] at hsettle
  refine ⟨rules, t, hrules, ht, hspans, by decide +kernel, result, reports, hresult, ?_, hreports⟩
  rw [← Except.ok.inj hsettle, diagnostics_settle _ true fun f hf => (hfindings f hf).2,
    Diagnostic.sort, List.map_mergeSort (s := fun a b => decide (a.1.line < b.1.line) ||
      (a.1.line == b.1.line && decide (a.1.column ≤ b.1.column)))]
  · simp only [List.map_map, Function.comp_def, htold]
    simp [List.mergeSort]
  · simp only [List.forall_mem_map]
    intro f hf g hg
    simp [Diagnostic.le, hpath f hf, hpath g hg]

end Stencil
