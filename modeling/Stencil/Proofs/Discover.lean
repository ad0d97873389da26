import Stencil.Discover
import Stencil.Project
import Stencil.Proofs.FileTree
import Stencil.Proofs.Lint
import Stencil.Proofs.Path

/-!
# The files that are found

Discovering puts the files that paths stand for in order and drops those with the same
components as another one.  A dot in front of a path is a component, and what a walk finds
has it if the path of the walk does, since it is that path joined with names.  So two files
are listed that are the same but for dots exactly if they are reached from a path with such
a dot and from one without.  Nothing is said of other spellings of a file, through `..` or
from the root.
-/

namespace Stencil

namespace FileTree

/-! ## Dropping repetitions -/

theorem mem_of_mem_dropRepeated {p : String} {paths : List String}
    (h : p ∈ dropRepeated paths) : p ∈ paths := by
  fun_induction dropRepeated paths with
  | case1 => simp at h
  | case2 path => exact h
  | case3 p q rest hsame ih =>
      rcases List.mem_cons.mp (ih h) with rfl | hmem
      · simp
      · simp [hmem]
  | case4 p q rest hsame ih =>
      rcases List.mem_cons.mp h with rfl | hmem
      · simp
      · exact List.mem_cons_of_mem _ (ih hmem)

theorem exists_mem_dropRepeated {p : String} {paths : List String} (h : p ∈ paths) :
    ∃ q ∈ dropRepeated paths, Path.components q = Path.components p := by
  fun_induction dropRepeated paths generalizing p with
  | case1 => simp at h
  | case2 path => exact ⟨p, h, rfl⟩
  | case3 q r rest hsame ih =>
      rcases List.mem_cons.mp h with rfl | h
      · exact ih (by simp)
      rcases List.mem_cons.mp h with rfl | h
      · rw [← Path.same_iff.mp hsame]
        exact ih (by simp)
      · exact ih (by simp [h])
  | case4 q r rest hsame ih =>
      rcases List.mem_cons.mp h with rfl | h
      · exact ⟨p, by simp, rfl⟩
      · obtain ⟨q', hmem, heq⟩ := ih h
        exact ⟨q', by simp [hmem], heq⟩

theorem pairwise_before_dropRepeated {paths : List String}
    (h : paths.Pairwise fun p q => Path.le p q = true) :
    (dropRepeated paths).Pairwise Path.Before := by
  fun_induction dropRepeated paths with
  | case1 => exact .nil
  | case2 path => exact List.pairwise_singleton _ _
  | case3 p q rest hsame ih =>
      exact ih (h.sublist ((List.sublist_cons_self q rest).cons_cons p))
  | case4 p q rest hsame ih =>
      obtain ⟨hp, hrest⟩ := List.pairwise_cons.mp h
      refine List.pairwise_cons.mpr ⟨?_, ih hrest⟩
      intro r hr
      have hmem := mem_of_mem_dropRepeated hr
      refine ⟨hp r hmem, ?_⟩
      -- what is like `p` behind `q` would make `q` like `p` too
      intro hpr
      have hqr : Path.le q r = true := by
        rcases List.mem_cons.mp hmem with rfl | hmem
        · exact Path.leComponents_refl _
        · exact (List.pairwise_cons.mp hrest).1 r hmem
      have hpq := hp q (by simp)
      rw [Path.le, ← hpr] at hqr
      exact hsame (Path.same_iff.mpr (Path.leComponents_antisymm hpq hqr))

/-! ## Files found -/

variable {tree : FileTree} {config : Config}

def Finds (tree : FileTree) (config : Config) (path file : String) : Prop :=
  ∃ found, tree.filesAt config path = .ok found ∧ file ∈ found

theorem ne_empty_of_place? {path : String} {place : List String}
    (h : tree.place? path = .ok place) : path ≠ "" := by
  rintro rfl
  simp [place?] at h

theorem exists_join_of_mem_files {w : Walk} {passed : List (String × DirectoryRules)}
    {path file : String} {way : List String} {forest : Forest}
    (h : file ∈ w.files tree passed path way forest) :
    ∃ names : List String, file = names.foldl Path.join path := by
  induction forest generalizing passed path way with
  | nil => simp [Walk.files] at h
  | file name rest ih =>
      simp only [Walk.files] at h
      split at h
      · exact ih h
      · rcases List.mem_cons.mp h with rfl | h
        · exact ⟨[name], rfl⟩
        · exact ih h
  | directory name inside rest ihInside ihRest =>
      simp only [Walk.files] at h
      split at h
      · exact ihRest h
      · rcases List.mem_append.mp h with h | h
        · obtain ⟨names, rfl⟩ := ihInside h
          exact ⟨name :: names, rfl⟩
        · exact ihRest h

/-- Every file that a walk finds is the path of the directory joined with names. -/
theorem exists_join_of_walk {path file : String} {directory found : List String}
    (h : tree.walk config path directory = .ok found) (hfile : file ∈ found) :
    ∃ names : List String, file = names.foldl Path.join path := by
  unfold walk at h
  cases hexcludes : excludeRules config.excludes with
  | error e => simp [hexcludes, Except.map] at h
  | ok excludes =>
      simp only [hexcludes, Except.map, Except.ok.injEq] at h
      subst h
      split at hfile
      · simp at hfile
      · exact exists_join_of_mem_files (List.mem_filter.mp hfile).1

theorem Finds.exists_join {path file : String} (h : tree.Finds config path file) :
    path ≠ "" ∧ ∃ names : List String, file = names.foldl Path.join path := by
  obtain ⟨found, hfound, hmem⟩ := h
  unfold filesAt at hfound
  split at hfound
  · simp at hfound
  · rename_i place hplace
    refine ⟨ne_empty_of_place? hplace, ?_⟩
    split at hfound
    · obtain rfl := Except.ok.inj hfound
      exact ⟨[], List.mem_singleton.mp hmem⟩
    · exact exists_join_of_walk hfound hmem
    · simp at hfound

theorem Finds.dotted_iff {path file : String} (h : tree.Finds config path file) :
    Path.Dotted file ↔ Path.Dotted path := by
  obtain ⟨hpath, names, rfl⟩ := h.exists_join
  exact Path.dotted_foldl_join hpath names

/-! ## The list of files -/

theorem mem_flatten_of_mapM {paths : List String} {lists : List (List String)}
    (h : paths.mapM (tree.filesAt config) = .ok lists) {file : String} :
    file ∈ lists.flatten ↔ ∃ path ∈ paths, tree.Finds config path file := by
  induction paths generalizing lists with
  | nil =>
      obtain rfl : lists = [] := by simpa [pure, Except.pure] using h.symm
      simp
  | cons path paths ih =>
      rw [List.mapM_cons] at h
      cases hfound : tree.filesAt config path with
      | error e => simp [hfound, bind, Except.bind] at h
      | ok found =>
          cases hrest : paths.mapM (tree.filesAt config) with
          | error e => simp [hfound, hrest, bind, Except.bind] at h
          | ok rest =>
              obtain rfl : lists = found :: rest := by
                simpa [hfound, hrest, bind, Except.bind, pure, Except.pure] using h.symm
              simp [ih hrest, Finds, hfound]

theorem exists_of_discover {paths files : List String}
    (h : tree.discover config paths = .ok files) :
    files.Pairwise Path.Before ∧
      (∀ f ∈ files, ∃ path ∈ paths, tree.Finds config path f) ∧
      ∀ path ∈ paths, ∀ f, tree.Finds config path f →
        ∃ g ∈ files, Path.components g = Path.components f := by
  unfold discover at h
  cases hlists : paths.mapM (tree.filesAt config) with
  | error e => simp [hlists, Except.map] at h
  | ok lists =>
      simp only [hlists, Except.map, Except.ok.injEq] at h
      subst h
      refine ⟨pairwise_before_dropRepeated (Path.pairwise_le_mergeSort _), ?_, ?_⟩
      · intro f hf
        exact (mem_flatten_of_mapM hlists).mp (List.mem_mergeSort.mp (mem_of_mem_dropRepeated hf))
      · intro path hpath f hf
        have hmem := (mem_flatten_of_mapM hlists).mpr ⟨path, hpath, hf⟩
        exact exists_mem_dropRepeated (List.mem_mergeSort.mpr hmem)

theorem eq_of_components_eq {files : List String} (h : files.Pairwise Path.Before) :
    ∀ f ∈ files, ∀ g ∈ files, Path.components f = Path.components g → f = g := by
  apply List.Pairwise.forall_of_forall_of_flip
  · intro f _ _
    rfl
  · exact h.imp fun hfg heq => absurd heq hfg.2
  · exact h.imp fun hfg heq => absurd heq.symm hfg.2

/-- The files that are found come in strict order of their components, each from one of
the paths, and none of those that a path stands for is missing.  Two of them can only be
the same but for dots if one has a dot in front and the other has none; there are two
such files exactly if a path with a dot in front and one without both lead to a file. -/
theorem discover_repeats_iff {paths files : List String}
    (h : tree.discover config paths = .ok files) :
    files.Pairwise Path.Before ∧
      (∀ f ∈ files, ∃ path ∈ paths, tree.Finds config path f) ∧
      (∀ path ∈ paths, ∀ f, tree.Finds config path f →
        ∃ g ∈ files, Path.components g = Path.components f) ∧
      (∀ f ∈ files, ∀ g ∈ files, f ≠ g → Path.bare f = Path.bare g →
        (Path.Dotted f ↔ ¬ Path.Dotted g)) ∧
      ((∃ f ∈ files, ∃ g ∈ files, f ≠ g ∧ Path.bare f = Path.bare g) ↔
        ∃ p ∈ paths, ∃ q ∈ paths, Path.Dotted p ∧ ¬ Path.Dotted q ∧
          ∃ f g, tree.Finds config p f ∧ tree.Finds config q g ∧ Path.bare f = Path.bare g) := by
  obtain ⟨hbefore, hfound, hlisted⟩ := exists_of_discover h
  have hdots : ∀ f ∈ files, ∀ g ∈ files, f ≠ g → Path.bare f = Path.bare g →
      (Path.Dotted f ↔ ¬ Path.Dotted g) := by
    intro f hf g hg hne hbare
    have hcomponents := mt (eq_of_components_eq hbefore f hf g hg) hne
    rw [Path.components_eq_iff] at hcomponents
    grind
  refine ⟨hbefore, hfound, hlisted, hdots, ?_, ?_⟩
  · rintro ⟨f, hf, g, hg, hne, hbare⟩
    obtain ⟨p, hp, hpf⟩ := hfound f hf
    obtain ⟨q, hq, hqg⟩ := hfound g hg
    have hdifferent := hdots f hf g hg hne hbare
    rw [hpf.dotted_iff, hqg.dotted_iff] at hdifferent
    by_cases hdotted : Path.Dotted p
    · exact ⟨p, hp, q, hq, hdotted, hdifferent.mp hdotted, f, g, hpf, hqg, hbare⟩
    · have hdotted' : Path.Dotted q := by grind
      exact ⟨q, hq, p, hp, hdotted', hdotted, g, f, hqg, hpf, hbare.symm⟩
  · rintro ⟨p, hp, q, hq, hdotted, hplain, f, g, hpf, hqg, hbare⟩
    obtain ⟨f', hf', heq⟩ := hlisted p hp f hpf
    obtain ⟨g', hg', heq'⟩ := hlisted q hq g hqg
    obtain ⟨hbare₁, hdotted₁⟩ := Path.components_eq_iff.mp heq
    obtain ⟨hbare₂, hdotted₂⟩ := Path.components_eq_iff.mp heq'
    refine ⟨f', hf', g', hg', ?_, by rw [hbare₁, hbare₂, hbare]⟩
    rintro rfl
    exact hplain (hqg.dotted_iff.mp (hdotted₂.mp (hdotted₁.mpr (hpf.dotted_iff.mpr hdotted))))

/-- A file by two spellings without a dot in front, and its directory by one with it: of
the first two one is left, and what the walk finds stays beside it. -/
theorem discover_repeats_iff_three_spellings :
    let tree : FileTree := { workingDirectory := ["w"], files := [(["w", "b", "a.go"], [97, 10])] }
    let paths := ["b//a.go", "./b", "b/./a.go"]
    tree.discover {} paths = .ok ["./b/a.go", "b//a.go"] ∧
      ∃ p ∈ paths, ∃ q ∈ paths, Path.Dotted p ∧ ¬ Path.Dotted q ∧
        ∃ f g, tree.Finds {} p f ∧ tree.Finds {} q g ∧ Path.bare f = Path.bare g := by
  intro tree paths
  have hplace : tree.place? "./b" = .ok ["w", "b"] :=
    place?_of_follow (by decide +kernel) (by decide +kernel)
  have hdirectory : tree.entry ["w", "b"] = .ok .directory := rfl
  have hwalk : (tree.walk {} "./b" ["w", "b"]).toOption = some ["./b/a.go"] := by decide +kernel
  have hbelow : tree.filesAt {} "./b" = .ok ["./b/a.go"] := by
    simp only [filesAt, hplace, hdirectory]
    exact eq_ok_of_toOption hwalk
  have hplaces : tree.place? "b//a.go" = .ok ["w", "b", "a.go"] ∧
      tree.place? "b/./a.go" = .ok ["w", "b", "a.go"] := by
    constructor <;> exact place?_of_follow (by decide +kernel) (by decide +kernel)
  have hfirst : tree.filesAt {} "b//a.go" = .ok ["b//a.go"] := by
    rw [filesAt, hplaces.1]
    rfl
  have hsecond : tree.filesAt {} "b/./a.go" = .ok ["b/./a.go"] := by
    rw [filesAt, hplaces.2]
    rfl
  have hdotted : Path.le "b//a.go" "./b/a.go" = false ∧ Path.le "./b/a.go" "b/./a.go" = true ∧
      Path.same "./b/a.go" "b//a.go" = false := by decide +kernel
  have hspelled : Path.le "b//a.go" "b/./a.go" = true ∧ Path.same "b//a.go" "b/./a.go" = true := by
    decide +kernel
  have hdiscover : tree.discover {} paths = .ok ["./b/a.go", "b//a.go"] := by
    simp [discover, paths, List.mapM_cons, hfirst, hbelow, hsecond, bind, Except.bind, pure,
      Except.pure, Except.map, List.mergeSort, dropRepeated, hdotted, hspelled]
  obtain ⟨_, _, _, _, hrepeats⟩ := discover_repeats_iff hdiscover
  have hbare : Path.bare "./b/a.go" = Path.bare "b//a.go" := by decide +kernel
  exact ⟨hdiscover, hrepeats.mp ⟨"./b/a.go", by simp, "b//a.go", by simp, by simp, hbare⟩⟩

/-- A file that is given with a dot in front and without it is listed twice, and linting
the list reports its one match twice. -/
theorem discover_repeats_dotted_file :
    let tree : FileTree := { workingDirectory := ["w"], files := [(["w", "a.go"], [97, 10])] }
    let files := ["./a.go", "a.go"]
    tree.discover {} ["a.go", "./a.go"] = .ok files ∧
      Path.bare "./a.go" = Path.bare "a.go" ∧
      tree.place? "./a.go" = .ok ["w", "a.go"] ∧ tree.place? "a.go" = .ok ["w", "a.go"] ∧
      ∃ rules, Rule.compileAll [{ name := "letter", pattern := "a" }] = .ok rules ∧
        (tree.lint rules ⟨false, false⟩ files).1.diagnostics.length = 2 := by
  intro tree files
  have hplaces : tree.place? "./a.go" = .ok ["w", "a.go"] ∧
      tree.place? "a.go" = .ok ["w", "a.go"] := by
    constructor <;> exact place?_of_follow (by decide +kernel) (by decide +kernel)
  have hdotted : tree.filesAt {} "./a.go" = .ok ["./a.go"] := by
    rw [filesAt, hplaces.1]
    rfl
  have hplain : tree.filesAt {} "a.go" = .ok ["a.go"] := by
    rw [filesAt, hplaces.2]
    rfl
  have horder : Path.le "a.go" "./a.go" = false ∧ Path.same "./a.go" "a.go" = false := by
    decide +kernel
  have hdiscover : tree.discover {} ["a.go", "./a.go"] = .ok files := by
    simp [discover, files, List.mapM_cons, hdotted, hplain, bind, Except.bind, pure, Except.pure,
      Except.map, List.mergeSort, dropRepeated, horder]
  refine ⟨hdiscover, by decide +kernel, hplaces.1, hplaces.2, ?_⟩
  have hfound : (do
        let rules ← (Rule.compileAll [{ name := "letter", pattern := "a" }]).toOption
        let t ← (SourceFile.target ⟨"a.go", [97, 10]⟩).toOption
        return ["./a.go", "a.go"].map fun path =>
          (findingsFrom ⟨path, [97, 10]⟩ t false 0 rules).length) = some [1, 1] := by
    decide +kernel
  obtain ⟨rules, t, hrules, ht, hfound⟩ := exists_ok_of_bind_toOption hfound
  have ht' : SourceFile.target ⟨"./a.go", [97, 10]⟩ = .ok t := by
    obtain ⟨cs, hcontent, htokens⟩ := target_eq_ok_iff.mp ht
    exact target_eq_ok_iff.mpr ⟨cs, hcontent, htokens⟩
  have hread : tree.read "a.go" = .ok [97, 10] ∧ tree.read "./a.go" = .ok [97, 10] :=
    ⟨read_eq_ok_iff.mpr ⟨_, hplaces.2, rfl, rfl⟩, read_eq_ok_iff.mpr ⟨_, hplaces.1, rfl, rfl⟩⟩
  refine ⟨rules, hrules, ?_⟩
  simp only [List.map_cons, List.map_nil, List.cons.injEq, and_true] at hfound
  simp [lint, lintFiles, lintFile, files, hread, lintSource, ht, ht', settle,
    FileOutcome.diagnostics, Diagnostic.sort, hfound]

end FileTree

end Stencil
