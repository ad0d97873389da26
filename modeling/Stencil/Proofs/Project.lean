import Stencil.Project
import Stencil.Proofs.FileTree
import Stencil.Proofs.Lint
import Stencil.Report

/-!
# The counts of fixes

The count that linting files keeps against the number of diagnostics that are
reported as fixed.  The two agree unless the edits of some file leave it as it
was: its diagnostics count as corrected, but nothing is written and nothing is
counted.
-/

namespace Stencil

/-! ## Reports -/

namespace Report

@[simp] theorem correctedCount_nil : correctedCount [] = 0 := rfl

@[simp] theorem correctedCount_append (ds es : List Diagnostic) :
    correctedCount (ds ++ es) = correctedCount ds + correctedCount es := by
  simp [correctedCount]

@[simp] theorem correctedCount_sort (ds : List Diagnostic) :
    correctedCount (Diagnostic.sort ds) = correctedCount ds := by
  unfold correctedCount Diagnostic.sort
  exact ((List.mergeSort_perm ds Diagnostic.le).filter _).length_eq

theorem correctedCount_pos_iff {ds : List Diagnostic} :
    0 < correctedCount ds ↔ ∃ d ∈ ds, d.corrected = true := by
  rw [correctedCount, List.length_filter_pos_iff]

end Report

namespace FileTree

variable {tree : FileTree} {rules : List Rule} {options : LintOptions}

/-! ## One file -/

/-- Edits are made in the file, and together they leave it as it is. -/
def Idle (tree : FileTree) (rules : List Rule) (options : LintOptions) (path : String) : Prop :=
  ∃ content t found, tree.read path = .ok content ∧
    SourceFile.target ⟨path, content⟩ = .ok t ∧ options.fix = true ∧
    found = findingsFrom ⟨path, content⟩ t options.overlapping 0 rules ∧
    (∃ f ∈ found, f.isKept found = true) ∧ (keptEdits found).apply content = content

theorem idle_iff {path : String} {content : List UInt8} (hread : tree.read path = .ok content)
    {result : LintResult} (hresult : lintSource ⟨path, content⟩ rules options = .ok result) :
    tree.Idle rules options path ↔
      result.fixed = none ∧ 0 < Report.correctedCount result.diagnostics := by
  unfold lintSource at hresult
  split at hresult
  · simp at hresult
  · rename_i t ht
    simp only [Except.ok.injEq] at hresult
    subst hresult
    obtain ⟨_, _, _, hfindings⟩ := findings_of_target ht rules options.overlapping
    rw [Report.correctedCount_pos_iff, settle_idle_iff _ _ fun f hf => (hfindings f hf).2]
    simp [Idle, hread, ht]

/-- What is counted for a file falls short of what is reported exactly if its edits
leave it as it is. -/
theorem lintFile_counts (tree : FileTree) (rules : List Rule) (options : LintOptions)
    (path : String) :
    let outcome := (tree.lintFile rules options path).1
    outcome.correctedCount ≤ Report.correctedCount outcome.diagnostics ∧
      (outcome.correctedCount = Report.correctedCount outcome.diagnostics ↔
        ¬ tree.Idle rules options path) := by
  intro outcome
  cases hread : tree.read path with
  | error e =>
      have houtcome : outcome.correctedCount = 0 ∧ outcome.diagnostics = [] := by
        simp [outcome, lintFile, hread, FileOutcome.correctedCount, FileOutcome.diagnostics]
      have hidle : ¬ tree.Idle rules options path := by simp [Idle, hread]
      simp [houtcome, hidle]
  | ok content =>
      cases hresult : lintSource ⟨path, content⟩ rules options with
      | error e =>
          have houtcome : outcome.correctedCount = 0 ∧ outcome.diagnostics = [] := by
            simp [outcome, lintFile, hread, hresult, FileOutcome.correctedCount,
              FileOutcome.diagnostics]
          have hidle : ¬ tree.Idle rules options path := by
            rintro ⟨content', t, _, hread', ht, _⟩
            obtain rfl := Except.ok.inj (hread.symm.trans hread')
            simp [lintSource, ht] at hresult
          simp [houtcome, hidle]
      | ok result =>
          have hidle := idle_iff hread hresult
          cases hfixed : result.fixed with
          | none =>
              have houtcome : outcome.correctedCount = 0 ∧
                  outcome.diagnostics = result.diagnostics := by
                simp [outcome, lintFile, hread, hresult, hfixed, FileOutcome.correctedCount,
                  FileOutcome.diagnostics]
              rw [hidle, houtcome.1, houtcome.2]
              simp only [hfixed, true_and]
              omega
          | some fixed =>
              rw [hidle]
              simp only [hfixed, reduceCtorEq, false_and, not_false_eq_true, iff_true]
              rcases hwrite : tree.write path fixed with ⟨failure, after⟩
              cases failure with
              | none =>
                  have houtcome : outcome = .linted result.diagnostics
                      (result.diagnostics.filter (·.corrected)).length result.logs := by
                    simp only [outcome, lintFile, hread, hresult, hfixed, hwrite]
                  rw [houtcome]
                  exact ⟨Nat.le_refl _, rfl⟩
              | some e =>
                  have houtcome : outcome = .unwritten path result e := by
                    simp only [outcome, lintFile, hread, hresult, hfixed, hwrite]
                  simp [houtcome, FileOutcome.unwritten, FileOutcome.correctedCount,
                    FileOutcome.diagnostics, Report.correctedCount, List.filter_map,
                    Function.comp_def]

/-! ## All files -/

theorem lintFiles_counts (tree : FileTree) (rules : List Rule) (options : LintOptions)
    (files : List String) :
    let outcomes := (tree.lintFiles rules options files).1
    let counted := outcomes.foldr (fun outcome count => outcome.correctedCount + count) 0
    let reported := Report.correctedCount (outcomes.flatMap (·.diagnostics))
    counted ≤ reported ∧
      (counted = reported ↔ ∀ before path after, files = before ++ path :: after →
        ¬ (tree.lintFiles rules options before).2.Idle rules options path) := by
  induction files generalizing tree with
  | nil => simp [lintFiles]
  | cons path rest ih =>
      obtain ⟨hle, hiff⟩ := lintFile_counts tree rules options path
      obtain ⟨hleRest, hiffRest⟩ := ih (tree.lintFile rules options path).2
      have hsplit : (∀ before path' after, path :: rest = before ++ path' :: after →
            ¬ (tree.lintFiles rules options before).2.Idle rules options path') ↔
          ¬ tree.Idle rules options path ∧
            ∀ before path' after, rest = before ++ path' :: after →
              ¬ ((tree.lintFile rules options path).2.lintFiles rules options before).2.Idle
                rules options path' := by
        constructor
        · intro h
          refine ⟨h [] path rest rfl, ?_⟩
          rintro before path' after rfl
          exact h (path :: before) path' after rfl
        · rintro ⟨hfirst, hrest⟩ before path' after heq
          cases before with
          | nil =>
              obtain ⟨rfl, rfl⟩ := List.cons.inj heq
              exact hfirst
          | cons _ before =>
              obtain ⟨rfl, rfl⟩ := List.cons.inj heq
              exact hrest before path' after rfl
      simp only [lintFiles, List.foldr_cons, List.flatMap_cons,
        Report.correctedCount_append, hsplit, ← hiff, ← hiffRest]
      omega

/-- The count of fixes is never more than what is reported as fixed, and the two
agree exactly if no file is left as it was by the edits made in it. -/
theorem lint_correctedCount (tree : FileTree) (rules : List Rule) (options : LintOptions)
    (files : List String) :
    let result := (tree.lint rules options files).1
    result.correctedCount ≤ Report.correctedCount result.diagnostics ∧
      (result.correctedCount = Report.correctedCount result.diagnostics ↔
        ∀ before path after, files = before ++ path :: after →
          ¬ (tree.lintFiles rules options before).2.Idle rules options path) := by
  have hcounts := lintFiles_counts tree rules options files
  simpa only [lint, Report.correctedCount_sort] using hcounts

/-- A rule that rewrites to what it matches: the one match is reported as fixed, and
it is not counted. -/
theorem lint_miscounts_same_rewrite :
    ∃ rules, Rule.compileAll [{ name := "same", pattern := "a", rewrite := some "a" }] = .ok rules ∧
      let tree : FileTree := { workingDirectory := ["w"], files := [(["w", "a.go"], [97, 10])] }
      let result := (tree.lint rules ⟨false, true⟩ ["a.go"]).1
      result.correctedCount = 0 ∧ Report.correctedCount result.diagnostics = 1 := by
  have hfound : (do
        let rules ← (Rule.compileAll
          [{ name := "same", pattern := "a", rewrite := some "a" }]).toOption
        let t ← (SourceFile.target ⟨"a.go", [97, 10]⟩).toOption
        return (findingsFrom ⟨"a.go", [97, 10]⟩ t false 0 rules).map fun f =>
          (f.edit?, f.diagnostic.corrected)) = some [(some ⟨0, 1, "a", 0⟩, false)] := by
    decide +kernel
  obtain ⟨rules, t, hrules, ht, hfound⟩ := exists_ok_of_bind_toOption hfound
  refine ⟨rules, hrules, ?_⟩
  intro tree result
  have hplace : tree.place? "a.go" = .ok ["w", "a.go"] :=
    place?_of_follow (by decide +kernel) (by decide +kernel)
  have hread : tree.read "a.go" = .ok [97, 10] := read_eq_ok_iff.mpr ⟨_, hplace, rfl, rfl⟩
  obtain ⟨f, hf, hfields⟩ := List.map_eq_singleton_iff.mp hfound
  obtain ⟨hedit, hplain⟩ := Prod.mk.inj hfields
  have hedits : (keptEdits [f]).edits = [⟨0, 1, "a", 0⟩] := by
    simp [keptEdits, hedit, EditSet.ofList, Edit.keep]
  have hkept : f.isKept [f] = true :=
    (isKept_iff (List.pairwise_singleton _ _) (by simp)).mpr ⟨_, by simp [hedits], hedit⟩
  have happly : (keptEdits [f]).apply [97, 10] = [97, 10] := by
    rw [EditSet.apply, hedits]
    decide +kernel
  have hlint : lintSource ⟨"a.go", [97, 10]⟩ rules ⟨false, true⟩ =
      .ok (settle ⟨"a.go", [97, 10]⟩ true [f]) := by simp [lintSource, ht, hf]
  have hfixed : (settle ⟨"a.go", [97, 10]⟩ true [f]).fixed = none := by simp [fixed_settle, happly]
  have hdiagnostics :
      Report.correctedCount (settle ⟨"a.go", [97, 10]⟩ true [f]).diagnostics = 1 := by
    rw [diagnostics_settle _ _ (by simpa using hplain), Report.correctedCount_sort]
    simp [Report.correctedCount, hkept]
  simp [result, lint, lintFiles, lintFile, hread, hlint, hfixed, FileOutcome.correctedCount,
    FileOutcome.diagnostics, hdiagnostics]

end FileTree

end Stencil
