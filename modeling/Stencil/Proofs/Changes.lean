import Stencil.Proofs.FileTree
import Stencil.Proofs.Lint
import Stencil.Run

/-!
# What linting changes

Linting files that lie apart gives each of them what linting gives for its own content,
and leaves everything else as it is; how a file comes out is up to what it holds and to
what fails with it.  A source on standard input is fixed as the file with its path would
be.
-/

namespace Stencil

/-! ## One source -/

theorem path_of_mem_findingsFrom {source : SourceFile} {t : Target} {overlapping : Bool}
    {index : Nat} {rules : List Rule} {f : Finding}
    (hf : f ∈ findingsFrom source t overlapping index rules) : f.diagnostic.path = source.path := by
  induction rules generalizing index with
  | nil => simp [findingsFrom] at hf
  | cons rule rules ih =>
      rcases List.mem_append.mp hf with hf | hf
      · obtain ⟨a, _, rfl⟩ := List.mem_map.mp hf
        rfl
      · exact ih hf

theorem exists_finding_of_lintSource {source : SourceFile} {rules : List Rule}
    {options : LintOptions} {result : LintResult}
    (h : lintSource source rules options = .ok result) {d : Diagnostic}
    (hd : d ∈ result.diagnostics) :
    ∃ t, ∃ f ∈ findingsFrom source t options.overlapping 0 rules,
      d = { f.diagnostic with corrected := d.corrected } := by
  unfold lintSource at h
  split at h
  · cases h
  · rename_i t ht
    obtain rfl := Except.ok.inj h
    have hplain := fun f hf => ((findings_of_target ht rules options.overlapping).2.2.2 f hf).2
    rw [diagnostics_settle _ _ hplain, Diagnostic.sort, List.mem_mergeSort] at hd
    obtain ⟨f, hf, rfl⟩ := List.mem_map.mp hd
    exact ⟨t, f, hf, rfl⟩

theorem path_of_lintSource {source : SourceFile} {rules : List Rule} {options : LintOptions}
    {result : LintResult} (h : lintSource source rules options = .ok result) :
    ∀ d ∈ result.diagnostics, d.path = source.path := by
  intro d hd
  obtain ⟨t, f, hf, hd⟩ := exists_finding_of_lintSource h hd
  rw [hd]
  exact path_of_mem_findingsFrom hf

def Lintable (content : List UInt8) : Prop :=
  ∃ cs t, content = utf8Bytes cs ∧ Target.tokenize (String.ofList cs) = .ok t

theorem lintable_iff {content : List UInt8} (path : String) :
    Lintable content ↔ ∃ t, SourceFile.target ⟨path, content⟩ = .ok t := by
  simp only [target_eq_ok_iff]
  exact exists_comm

theorem lintable_iff_lintSource {content : List UInt8} (path : String) (rules : List Rule)
    (options : LintOptions) :
    Lintable content ↔ ∃ result, lintSource ⟨path, content⟩ rules options = .ok result := by
  rw [lintable_iff path]
  unfold lintSource
  cases SourceFile.target ⟨path, content⟩ <;> simp

instance (content : List UInt8) : Decidable (Lintable content) :=
  decidable_of_iff ((SourceFile.target ⟨"", content⟩).isOk = true) <| by
    rw [lintable_iff ""]
    cases SourceFile.target ⟨"", content⟩ <;> simp [Except.isOk, Except.toBool]

theorem fixed_of_lintSource {source : SourceFile} {rules : List Rule} {options : LintOptions}
    {result : LintResult} (h : lintSource source rules options = .ok result)
    (hfix : options.fix = false) : result.fixed = none := by
  unfold lintSource at h
  split at h
  · cases h
  · obtain rfl := Except.ok.inj h
    simp [fixed_settle, hfix]

theorem getD_fixed_of_lintSource {source : SourceFile} {t : Target} {rules : List Rule}
    {options : LintOptions} {result : LintResult} (ht : source.target = .ok t)
    (hfix : options.fix = true) (h : lintSource source rules options = .ok result) :
    result.fixed.getD source.content =
      (keptEdits (findingsFrom source t options.overlapping 0 rules)).apply source.content := by
  simp only [lintSource, ht, Except.ok.injEq] at h
  rw [← h, fixed_settle, hfix]
  split
  · rfl
  · rename_i hsame
    simp only [true_and, ne_eq, not_not] at hsame
    exact hsame.symm

/-- The outcome for a file and the content that it is left with if it is written to, from
what reading it gives and what writing to it comes to. -/
def lintHeld (rules : List Rule) (options : LintOptions) (path : String)
    (attempt : List UInt8 → Option FileError × Option (List UInt8)) :
    Except FileError (List UInt8) → FileOutcome × Option (List UInt8)
  | .error e => (.skipped path s!"failed to read {path}: {e.message}", none)
  | .ok content =>
    match lintSource ⟨path, content⟩ rules options with
    | .error e => (.skipped path e.message, none)
    | .ok result =>
      match result.fixed with
      | none => (.linted result.diagnostics 0 result.logs, none)
      | some fixed =>
        match (attempt fixed).1 with
        | none =>
          (.linted result.diagnostics (result.diagnostics.filter (·.corrected)).length
            result.logs, (attempt fixed).2)
        | some e => (.unwritten path result e, (attempt fixed).2)

section

variable {rules : List Rule} {options : LintOptions} {path : String} {content : List UInt8}
  {attempt : List UInt8 → Option FileError × Option (List UInt8)}

theorem lintHeld_of_not_fix (hfix : options.fix = false)
    (held : Except FileError (List UInt8)) :
    (lintHeld rules options path attempt held).2 = none := by
  cases held with
  | error e => rfl
  | ok content =>
      cases hlint : lintSource ⟨path, content⟩ rules options with
      | error e => simp only [lintHeld, hlint]
      | ok result => simp only [lintHeld, hlint, fixed_of_lintSource hlint hfix]

theorem lintHeld_of_lintSource {result : LintResult}
    (hlint : lintSource ⟨path, content⟩ rules options = .ok result)
    (hwrite : ∀ fixed, result.fixed = some fixed → attempt fixed = (none, some fixed)) :
    (lintHeld rules options path attempt (.ok content)).2.getD content =
      result.fixed.getD content := by
  cases hfixed : result.fixed with
  | none => simp only [lintHeld, hlint, hfixed, Option.getD_none]
  | some fixed => simp only [lintHeld, hlint, hfixed, hwrite fixed hfixed, Option.getD_some]

theorem lintHeld_of_not_lintable (h : ¬ Lintable content) :
    (lintHeld rules options path attempt (.ok content)).2 = none := by
  cases hlint : lintSource ⟨path, content⟩ rules options with
  | error e => simp only [lintHeld, hlint]
  | ok result => exact absurd ((lintable_iff_lintSource path rules options).mpr ⟨result, hlint⟩) h

theorem skippedPath?_lintHeld :
    (lintHeld rules options path attempt (.ok content)).1.skippedPath? =
      Option.guard (fun _ => ¬ Lintable content) path := by
  have hiff : Lintable content ↔ _ := lintable_iff_lintSource path rules options
  cases hlint : lintSource ⟨path, content⟩ rules options with
  | error e => simp [lintHeld, FileOutcome.skippedPath?, Option.guard, hiff, hlint]
  | ok result =>
      simp only [lintHeld, hlint]
      split
      · simp [FileOutcome.skippedPath?, Option.guard, hiff, hlint]
      · split <;> simp [FileOutcome.skippedPath?, FileOutcome.unwritten, Option.guard, hiff, hlint]

theorem exists_of_mem_lintHeld {held : Except FileError (List UInt8)} {d : Diagnostic}
    (hd : d ∈ (lintHeld rules options path attempt held).1.diagnostics) :
    ∃ content result, held = .ok content ∧
      lintSource ⟨path, content⟩ rules options = .ok result ∧
      ∃ d' ∈ result.diagnostics, d = { d' with corrected := d.corrected } ∧
        (lintHeld rules options path attempt held).1.skippedPath? = none := by
  cases held with
  | error e => simp [lintHeld, FileOutcome.diagnostics] at hd
  | ok content =>
      cases hlint : lintSource ⟨path, content⟩ rules options with
      | error e => simp [lintHeld, hlint, FileOutcome.diagnostics] at hd
      | ok result =>
          refine ⟨content, result, rfl, hlint, ?_⟩
          simp only [lintHeld, hlint] at hd ⊢
          split at hd
          · exact ⟨d, hd, rfl, rfl⟩
          · split at hd
            · exact ⟨d, hd, rfl, rfl⟩
            · obtain ⟨d', hd', rfl⟩ := List.mem_map.mp hd
              exact ⟨d', hd', rfl, rfl⟩

theorem path_of_lintHeld (held : Except FileError (List UInt8)) :
    ∀ d ∈ (lintHeld rules options path attempt held).1.diagnostics,
      d.path = path ∧ (lintHeld rules options path attempt held).1.skippedPath? = none := by
  intro d hd
  obtain ⟨content, result, _, hlint, d', hd', heq, hskipped⟩ := exists_of_mem_lintHeld hd
  rw [heq]
  exact ⟨path_of_lintSource hlint d' hd', hskipped⟩

end

namespace FileTree

variable {tree tree' : FileTree} {rules : List Rule} {options : LintOptions} {p q path : String}

/-! ## One file -/

theorem lintFile_eq (tree : FileTree) (rules : List Rule) (options : LintOptions)
    (path : String) :
    tree.lintFile rules options path =
      ((lintHeld rules options path (tree.attempt path) (tree.read path)).1,
        tree.update path
          (lintHeld rules options path (tree.attempt path) (tree.read path)).2) := by
  cases hread : tree.read path with
  | error e =>
      simp only [lintFile, hread]
      rfl
  | ok content =>
      cases hlint : lintSource ⟨path, content⟩ rules options with
      | error e =>
          simp only [lintFile, lintHeld, hread, hlint]
          rfl
      | ok result =>
          cases hfixed : result.fixed with
          | none =>
              simp only [lintFile, lintHeld, hread, hlint, hfixed]
              rfl
          | some fixed =>
              simp only [lintFile, lintHeld, hread, hlint, hfixed, write_eq]
              cases (tree.attempt path fixed).1 <;> rfl

theorem lintFile_congr (hread : tree'.read path = tree.read path)
    (hattempt : tree'.attempt path = tree.attempt path) :
    (tree'.lintFile rules options path).1 = (tree.lintFile rules options path).1 := by
  simp only [lintFile_eq, hread, hattempt]

theorem read_lintFile {content : List UInt8} (hread : tree.read path = .ok content) :
    (tree.lintFile rules options path).2.read path =
      .ok ((lintHeld rules options path (tree.attempt path) (.ok content)).2.getD content) := by
  rw [lintFile_eq, hread, read_update_self hread]

theorem tree_lintFile_of_not_fix (hfix : options.fix = false) :
    (tree.lintFile rules options path).2 = tree := by
  rw [lintFile_eq, lintHeld_of_not_fix hfix]
  rfl

@[simp] theorem place?_lintFile (tree : FileTree) (rules : List Rule) (options : LintOptions)
    (path q : String) : (tree.lintFile rules options path).2.place? q = tree.place? q := by
  rw [lintFile_eq, place?_update]

@[simp] theorem faultsAt_lintFile (tree : FileTree) (rules : List Rule) (options : LintOptions)
    (path : String) : (tree.lintFile rules options path).2.faultsAt = tree.faultsAt := by
  rw [lintFile_eq, faultsAt_update]

@[simp] theorem attempt_lintFile (tree : FileTree) (rules : List Rule) (options : LintOptions)
    (path q : String) : (tree.lintFile rules options path).2.attempt q = tree.attempt q := by
  rw [lintFile_eq, attempt_update]

@[simp] theorem apart_lintFile (tree : FileTree) (rules : List Rule) (options : LintOptions)
    (path : String) : (tree.lintFile rules options path).2.Apart = tree.Apart :=
  apart_congr (place?_lintFile tree rules options path)

theorem entry_lintFile_of_ne {place : List String} (hne : tree.place? path ≠ .ok place) :
    (tree.lintFile rules options path).2.entry place = tree.entry place := by
  rw [lintFile_eq, entry_update_of_ne hne]

theorem Apart.read_lintFile (h : tree.Apart p q) :
    (tree.lintFile rules options p).2.read q = tree.read q := by
  rw [lintFile_eq, h.read_update]

theorem Apart.lintFile_comm (h : tree.Apart p q) :
    ((tree.lintFile rules options p).2.lintFile rules options q).2 =
      ((tree.lintFile rules options q).2.lintFile rules options p).2 := by
  simp only [lintFile_eq, h.read_update, h.symm.read_update, attempt_update]
  exact h.update_comm _ _

/-! ## All files -/

variable {files : List String}

/-- Files that lie apart come out as if each were linted alone. -/
theorem lintFiles_outcomes (hapart : files.Pairwise tree.Apart) :
    (tree.lintFiles rules options files).1 =
      files.map fun path => (tree.lintFile rules options path).1 := by
  induction files generalizing tree with
  | nil => rfl
  | cons path files ih =>
      obtain ⟨hpath, hfiles⟩ := List.pairwise_cons.mp hapart
      have hrest := @ih (tree.lintFile rules options path).2
        (by rwa [apart_lintFile])
      simp only [lintFiles, hrest, List.map_cons, List.cons.injEq, true_and]
      -- the files behind the first one hold what they held before it
      exact List.map_congr_left fun q hq =>
        lintFile_congr (hpath q hq).read_lintFile (attempt_lintFile tree rules options path q)

@[simp] theorem place?_lintFiles (tree : FileTree) (rules : List Rule) (options : LintOptions)
    (files : List String) (q : String) :
    (tree.lintFiles rules options files).2.place? q = tree.place? q := by
  induction files generalizing tree with
  | nil => rfl
  | cons path files ih => simp only [lintFiles, ih, place?_lintFile]

@[simp] theorem faultsAt_lintFiles (tree : FileTree) (rules : List Rule) (options : LintOptions)
    (files : List String) : (tree.lintFiles rules options files).2.faultsAt = tree.faultsAt := by
  induction files generalizing tree with
  | nil => rfl
  | cons path files ih => simp only [lintFiles, ih, faultsAt_lintFile]

theorem entry_lintFiles_of_ne {place : List String}
    (hne : ∀ path ∈ files, tree.place? path ≠ .ok place) :
    (tree.lintFiles rules options files).2.entry place = tree.entry place := by
  induction files generalizing tree with
  | nil => rfl
  | cons path files ih =>
      have hrest := @ih (tree.lintFile rules options path).2
        (by simpa using fun q hq => hne q (List.mem_cons_of_mem _ hq))
      simp only [lintFiles, hrest]
      exact entry_lintFile_of_ne (hne path (by simp))

theorem read_lintFiles (hapart : files.Pairwise tree.Apart) (hpath : path ∈ files)
    {content : List UInt8} (hread : tree.read path = .ok content) :
    (tree.lintFiles rules options files).2.read path =
      .ok ((lintHeld rules options path (tree.attempt path) (.ok content)).2.getD content) := by
  induction files generalizing tree with
  | nil => simp at hpath
  | cons first files ih =>
      obtain ⟨hfirst, hfiles⟩ := List.pairwise_cons.mp hapart
      simp only [lintFiles]
      rcases List.mem_cons.mp hpath with rfl | hpath
      · rw [← read_lintFile hread]
        refine read_congr (by simp) (by simp) fun place hplace => entry_lintFiles_of_ne ?_
        intro q hq
        rw [place?_lintFile] at hplace ⊢
        exact hfirst q hq place hplace
      · rw [ih (by rwa [apart_lintFile]) hpath (by rwa [(hfirst path hpath).read_lintFile]),
          attempt_lintFile]

theorem tree_lintFiles_of_not_fix (hfix : options.fix = false) :
    (tree.lintFiles rules options files).2 = tree := by
  induction files generalizing tree with
  | nil => rfl
  | cons path files ih => simp only [lintFiles, ih, tree_lintFile_of_not_fix hfix]

theorem skipped_lint {contents : String → List UInt8} (hapart : files.Pairwise tree.Apart)
    (hread : ∀ path ∈ files, tree.read path = .ok (contents path)) :
    (tree.lint rules options files).1.skipped =
      files.filter fun path => ¬ Lintable (contents path) := by
  change (tree.lintFiles rules options files).1.filterMap (·.skippedPath?) = _
  rw [lintFiles_outcomes hapart, List.filterMap_map, ← List.filterMap_eq_filter]
  refine List.filterMap_congr fun path hpath => ?_
  rw [Function.comp_apply, lintFile_eq, hread path hpath, skippedPath?_lintHeld]
  rfl

theorem path_of_lint (hapart : files.Pairwise tree.Apart) :
    ∀ d ∈ (tree.lint rules options files).1.diagnostics,
      d.path ∈ files ∧
        (lintHeld rules options d.path (tree.attempt d.path)
          (tree.read d.path)).1.skippedPath? = none := by
  intro d hd
  change d ∈ Diagnostic.sort ((tree.lintFiles rules options files).1.flatMap (·.diagnostics)) at hd
  rw [Diagnostic.sort, List.mem_mergeSort, lintFiles_outcomes hapart, List.flatMap_map,
    List.mem_flatMap] at hd
  obtain ⟨path, hpath, hd⟩ := hd
  rw [lintFile_eq] at hd
  obtain ⟨rfl, hskipped⟩ := path_of_lintHeld (tree.read path) d hd
  exact ⟨hpath, hskipped⟩

/-- What linting files that hold `contents` changes: a file that cannot be linted is
skipped, every other one ends with what linting its content gives, and all else stays. -/
structure Changes (rules : List Rule) (options : LintOptions) (files : List String)
    (contents : String → List UInt8) (before : FileTree) (result : ProjectResult)
    (after : FileTree) : Prop where
  skipped : result.skipped = files.filter fun path => ¬ Lintable (contents path)
  unreported : ∀ d ∈ result.diagnostics, d.path ∉ result.skipped
  skipped_kept : ∀ path ∈ result.skipped, after.read path = .ok (contents path)
  linted : ∀ path ∈ files, Lintable (contents path) →
    ∃ linted, lintSource ⟨path, contents path⟩ rules options = .ok linted ∧
      after.read path = .ok (linted.fixed.getD (contents path))
  unfixed : options.fix = false → after = before
  places : ∀ path, after.place? path = before.place? path
  entries : ∀ place, (∀ path ∈ files, before.place? path ≠ .ok place) →
    after.entry place = before.entry place

def Writable (tree : FileTree) (rules : List Rule) (options : LintOptions) (path : String)
    (content : List UInt8) : Prop :=
  ∀ linted fixed, lintSource ⟨path, content⟩ rules options = .ok linted →
    linted.fixed = some fixed → (tree.write path fixed).1 = none

theorem writable_of_faultless {path : String} {content : List UInt8}
    (hread : tree.read path = .ok content) (hfaults : tree.faults = []) :
    tree.Writable rules options path content :=
  fun _ fixed _ _ => write_of_faultless hread hfaults fixed

theorem changes_of_lint {contents : String → List UInt8} (hapart : files.Pairwise tree.Apart)
    (hread : ∀ path ∈ files, tree.read path = .ok (contents path))
    (hwrite : ∀ path ∈ files, tree.Writable rules options path (contents path)) :
    Changes rules options files contents tree (tree.lint rules options files).1
      (tree.lint rules options files).2 := by
  have hskipped : (tree.lint rules options files).1.skipped = _ := skipped_lint hapart hread
  have hleft : ∀ path ∈ files, (tree.lint rules options files).2.read path = .ok
      ((lintHeld rules options path (tree.attempt path) (.ok (contents path))).2.getD
        (contents path)) :=
    fun path hpath => read_lintFiles hapart hpath (hread path hpath)
  refine ⟨hskipped, ?_, ?_, ?_, tree_lintFiles_of_not_fix,
    place?_lintFiles tree rules options files, fun place => entry_lintFiles_of_ne⟩
  · intro d hd hmem
    rw [hskipped, List.mem_filter] at hmem
    have hnone := (path_of_lint hapart d hd).2
    rw [hread d.path hmem.1, skippedPath?_lintHeld] at hnone
    simp [Option.guard, hmem.2] at hnone
  · intro path hmem
    rw [hskipped, List.mem_filter, decide_eq_true_eq] at hmem
    obtain ⟨hpath, hnot⟩ := hmem
    rw [hleft path hpath, lintHeld_of_not_lintable hnot, Option.getD_none]
  · intro path hpath hlintable
    obtain ⟨linted, hlint⟩ := (lintable_iff_lintSource path rules options).mp hlintable
    refine ⟨linted, hlint, ?_⟩
    rw [hleft path hpath, lintHeld_of_lintSource hlint fun fixed hfixed =>
      attempt_of_write (hwrite path hpath linted fixed hlint hfixed)]

end FileTree

/-! ## Standard input -/

theorem Config.load_of_missing {tree : FileTree} {place : List String} {e : FileError}
    (hplace : tree.place? defaultPath = .ok place) (hentry : tree.entry place = .error e) :
    load tree none = .ok {} := by
  simp [load, FileTree.exists?, FileTree.find, hplace, hentry, Except.isOk, Except.toBool]

/-- The run fixes what comes on standard input, under the path and with the rules and
options. -/
structure Arguments.Filters (a : Arguments) (home : FileTree) (path : String) (rules : List Rule)
    (options : LintOptions) : Prop where
  stdin : a.stdin = some path
  fix : a.fix = true
  listRules : a.listRules = false
  options : a.lintOptions = options
  rules : ∃ config adhoc, Config.load home a.config = .ok config ∧ a.adhocRule = .ok adhoc ∧
    Rule.compileAll (config.rules ++ adhoc.toList) = .ok rules

section

variable {a : Arguments} {home : FileTree} {path : String} {rules : List Rule}
  {options : LintOptions} {content : List UInt8}

theorem run_of_no_rules (ha : a.Filters home path [] options) (stdin : List UInt8) :
    (run a home stdin).stdout = [] ∧ (run a home stdin).error =
      some s!"no rules to run: pass --pattern or add rules to {Config.defaultPath}" := by
  obtain ⟨config, adhoc, hconfig, hadhoc, hrules⟩ := ha.rules
  simp [run, hconfig, hadhoc, hrules, ha.listRules, Outcome.failure]

theorem run_of_lintSource (ha : a.Filters home path rules options) (hrules : rules ≠ [])
    {result : LintResult} (hresult : lintSource ⟨path, content⟩ rules options = .ok result) :
    (run a home content).stdout = result.fixed.getD content ∧
      (run a home content).error = none := by
  obtain ⟨config, adhoc, hconfig, hadhoc, hcompiled⟩ := ha.rules
  obtain ⟨cs, _, rfl, _⟩ :=
    (lintable_iff_lintSource path rules options).mpr ⟨result, hresult⟩
  simp [run, hconfig, hadhoc, hcompiled, ha.listRules, hrules, ha.stdin, runStdin,
    decode_utf8Bytes, ha.options, ha.fix, hresult, Outcome.success]

end

namespace FileTree

/-- Linting files that lie apart, can be read and take what is written to them changes what it
should, and a run on standard input that has rules writes what the file would end with. -/
theorem lint_changes {files : List String} {contents : String → List UInt8} {before : FileTree}
    (hapart : files.Pairwise before.Apart)
    (hread : ∀ path ∈ files, before.read path = .ok (contents path)) {rules : List Rule}
    {options : LintOptions}
    (hwrite : ∀ path ∈ files, before.Writable rules options path (contents path))
    {result : ProjectResult} {after : FileTree}
    (h : before.lint rules options files = (result, after)) :
    Changes rules options files contents before result after ∧
      ∀ path ∈ files, Lintable (contents path) →
        ∀ a home, Arguments.Filters a home path rules options →
          if rules = [] then
            (run a home (contents path)).stdout = [] ∧
              (run a home (contents path)).error =
                some s!"no rules to run: pass --pattern or add rules to {Config.defaultPath}"
          else
            after.read path = .ok (run a home (contents path)).stdout ∧
              (run a home (contents path)).error = none := by
  have hchanges := changes_of_lint hapart hread hwrite
  rw [h] at hchanges
  refine ⟨hchanges, ?_⟩
  intro path hpath hlintable a home ha
  split
  · rename_i hnil
    subst hnil
    exact run_of_no_rules ha _
  · rename_i hrules
    obtain ⟨linted, hlint, hafter⟩ := hchanges.linted path hpath hlintable
    obtain ⟨hstdout, herror⟩ := run_of_lintSource ha hrules hlint
    exact ⟨by rw [hafter, hstdout], herror⟩

/-- Of three files one is not text, one has a bracket that nothing closes, and one is
fixed; a run with the same rule on the text of that one writes what it ends with. -/
theorem lint_changes_of_three :
    let rule : RuleConfig := { name := "pattern", pattern := "f(:[x])", rewrite := some "g(:[x])" }
    let contents : String → List UInt8
      | "a.go" => [255]
      | "b.go" => utf8Bytes "(\n".toList
      | _ => utf8Bytes "f(1)\n".toList
    let before : FileTree := {
      workingDirectory := ["w"]
      files := [(["w", "a.go"], contents "a.go"), (["w", "b.go"], contents "b.go"),
        (["w", "c.go"], contents "c.go")] }
    let a : Arguments :=
      { pattern := rule.pattern, rewrite := rule.rewrite, fix := true, stdin := some "c.go" }
    let files := ["a.go", "b.go", "c.go"]
    ∃ rules result after, Rule.compileAll [rule] = .ok rules ∧
      files.Pairwise before.Apart ∧ (∀ path ∈ files, before.read path = .ok (contents path)) ∧
      (∀ path ∈ files, before.Writable rules ⟨false, true⟩ path (contents path)) ∧
      before.lint rules ⟨false, true⟩ files = (result, after) ∧
      Changes rules ⟨false, true⟩ files contents before result after ∧
      result.skipped = ["a.go", "b.go"] ∧
      after.read "c.go" = .ok (utf8Bytes "g(1)\n".toList) ∧
      (run a before (contents "c.go")).stdout = utf8Bytes "g(1)\n".toList := by
  intro rule contents before a files
  have hfound : (do
        let rules ← (Rule.compileAll [rule]).toOption
        let t ← (SourceFile.target ⟨"c.go", contents "c.go"⟩).toOption
        return (findingsFrom ⟨"c.go", contents "c.go"⟩ t false 0 rules).filterMap Finding.edit?) =
      some [⟨0, 4, "g(1)", 0⟩] := by
    decide +kernel
  obtain ⟨rules, t, hrules, ht, hfound⟩ := exists_ok_of_bind_toOption hfound
  have hplaces : before.place? "a.go" = .ok ["w", "a.go"] ∧
      before.place? "b.go" = .ok ["w", "b.go"] ∧ before.place? "c.go" = .ok ["w", "c.go"] := by
    refine ⟨?_, ?_, ?_⟩ <;> exact place?_of_follow (by decide +kernel) (by decide +kernel)
  have hapart : files.Pairwise before.Apart := by
    simp [files, Apart, hplaces]
  have hread : ∀ path ∈ files, before.read path = .ok (contents path) := by
    have hreads : before.read "a.go" = .ok (contents "a.go") ∧
        before.read "b.go" = .ok (contents "b.go") ∧
        before.read "c.go" = .ok (contents "c.go") :=
      ⟨read_eq_ok_iff.mpr ⟨_, hplaces.1, rfl, rfl⟩, read_eq_ok_iff.mpr ⟨_, hplaces.2.1, rfl, rfl⟩,
        read_eq_ok_iff.mpr ⟨_, hplaces.2.2, rfl, rfl⟩⟩
    simpa [files] using hreads
  obtain ⟨result, after, hlint⟩ : ∃ result after,
      before.lint rules ⟨false, true⟩ files = (result, after) := ⟨_, _, rfl⟩
  have hwrite : ∀ path ∈ files, before.Writable rules ⟨false, true⟩ path (contents path) :=
    fun path hpath => writable_of_faultless (hread path hpath) rfl
  obtain ⟨hchanges, hstdin⟩ := lint_changes hapart hread hwrite hlint
  have hlintable : ¬ Lintable (contents "a.go") ∧ ¬ Lintable (contents "b.go") ∧
      Lintable (contents "c.go") := by
    decide +kernel
  have hfilters : a.Filters before "c.go" rules ⟨false, true⟩ := by
    have hplace : before.place? Config.defaultPath = .ok ["w", ".holefix.yml"] :=
      place?_of_follow (by decide +kernel) (by decide +kernel)
    exact ⟨rfl, rfl, rfl, rfl, {}, some rule, Config.load_of_missing hplace rfl, rfl, hrules⟩
  have hkept : (keptEdits (findingsFrom ⟨"c.go", contents "c.go"⟩ t false 0 rules)).edits =
      [⟨0, 4, "g(1)", 0⟩] := by
    simp [keptEdits, hfound, EditSet.ofList, Edit.keep]
  have hfixed : after.read "c.go" = .ok (utf8Bytes "g(1)\n".toList) := by
    obtain ⟨linted, hlinted, hafter⟩ := hchanges.linted "c.go" (by simp [files]) hlintable.2.2
    rw [hafter, getD_fixed_of_lintSource ht rfl hlinted, EditSet.apply, hkept]
    decide +kernel
  have hrules' : rules ≠ [] := by
    rintro rfl
    simp [findingsFrom] at hfound
  have hstdout := hstdin "c.go" (by simp [files]) hlintable.2.2 a before hfilters
  rw [if_neg hrules', hfixed] at hstdout
  exact ⟨rules, result, after, hrules, hapart, hread, hwrite, hlint, hchanges,
    by rw [hchanges.skipped]; simp [files, hlintable], hfixed,
    (Except.ok.inj hstdout.1).symm⟩

/-- Without rules the file stays as it is, and the run writes nothing. -/
theorem run_writes_nothing_without_rules :
    let content := utf8Bytes "x\n".toList
    let before : FileTree := { workingDirectory := ["w"], files := [(["w", "a.go"], content)] }
    let a : Arguments := { fix := true, stdin := some "a.go" }
    Lintable content ∧ a.Filters before "a.go" [] ⟨false, true⟩ ∧
      before.read "a.go" = .ok content ∧
      (before.lint [] ⟨false, true⟩ ["a.go"]).2.read "a.go" = .ok content ∧
      content ≠ (run a before content).stdout := by
  intro content before a
  have hplace : before.place? "a.go" = .ok ["w", "a.go"] :=
    place?_of_follow (by decide +kernel) (by decide +kernel)
  have hread : before.read "a.go" = .ok content := read_eq_ok_iff.mpr ⟨_, hplace, rfl, rfl⟩
  have hlintable : Lintable content := by decide +kernel
  have hfilters : a.Filters before "a.go" [] ⟨false, true⟩ := by
    have hplace : before.place? Config.defaultPath = .ok ["w", ".holefix.yml"] :=
      place?_of_follow (by decide +kernel) (by decide +kernel)
    exact ⟨rfl, rfl, rfl, rfl, {}, none, Config.load_of_missing hplace rfl, rfl, rfl⟩
  refine ⟨hlintable, hfilters, hread, ?_, ?_⟩
  · have hreads : ∀ path ∈ ["a.go"], before.read path = .ok content := by simpa using hread
    have hwrite : ∀ path ∈ ["a.go"], before.Writable [] ⟨false, true⟩ path content :=
      fun path hpath => writable_of_faultless (hreads path hpath) rfl
    have hchanges := changes_of_lint (List.pairwise_singleton _ _) hreads hwrite
    obtain ⟨linted, hlinted, hafter⟩ := hchanges.linted "a.go" (by simp) hlintable
    obtain ⟨t, ht⟩ := (lintable_iff "a.go").mp hlintable
    simp only [lintSource, ht, findingsFrom, Except.ok.injEq] at hlinted
    rw [hafter, ← hlinted]
    rfl
  · rw [(run_of_no_rules hfilters content).1]
    decide +kernel

end FileTree

end Stencil
