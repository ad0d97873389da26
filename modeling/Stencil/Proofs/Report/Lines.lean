import Mathlib.Algebra.Ring.Nat
import Stencil.Proofs.Changes
import Stencil.Proofs.Rule
import Stencil.Report

/-!
# The lines of reports

A report in text has a line for each diagnostic, an empty line and the summary, but for
the line feeds in the texts a diagnostic prints: its path, the name of its rule, and the
message.  A message that is not given is made from the pattern, which may have several
lines.
-/

namespace Stencil

/-! ## Lines -/

def pieces (text : String) : List String := (text.toList.splitOn '\n').map String.ofList

/-- The lines of a text; a line feed at its end starts no line. -/
def lines (text : String) : List String :=
  if (pieces text).getLast? = some "" then (pieces text).dropLast else pieces text

def newlines (text : String) : Nat := text.toList.count '\n'

theorem pieces_append_newline (text rest : String) :
    pieces (text ++ "\n" ++ rest) = pieces text ++ pieces rest := by
  simp [pieces, List.splitOn_append_cons_self]

theorem lines_append_newline (text : String) : lines (text ++ "\n") = pieces text := by
  have hpieces : pieces (text ++ "\n") = pieces text ++ [""] := by
    simp [pieces, List.splitOn_append_cons_self]
  simp [lines, hpieces]

theorem length_pieces (text : String) : (pieces text).length = newlines text + 1 := by
  have hlength : ∀ cs : List Char, (cs.splitOn '\n').length = cs.count '\n' + 1 := by
    intro cs
    induction cs with
    | nil => rfl
    | cons c cs ih =>
        rw [List.splitOn_cons_eq_if_modifyHead, List.count_cons]
        split <;> simp [ih]
  rw [pieces, List.length_map, hlength, newlines]

theorem pieces_of_newlines_eq_zero {text : String} (h : newlines text = 0) :
    pieces text = [text] := by
  rw [pieces, List.splitOn_eq_singleton (List.count_eq_zero.mp h)]
  simp

@[simp] theorem newlines_append (text rest : String) :
    newlines (text ++ rest) = newlines text + newlines rest := by
  simp [newlines]

theorem digits_toString (n : Nat) : ∀ c ∈ (toString n).toList, c.isDigit = true := by
  intro c hc
  rw [Nat.toString_eq_repr, Nat.toList_repr] at hc
  exact Nat.isDigit_of_mem_toDigits (by omega) (by omega) hc

@[simp] theorem newlines_toString (n : Nat) : newlines (toString n) = 0 := by
  refine List.count_eq_zero.mpr fun hmem => ?_
  exact absurd (digits_toString n _ hmem) (by decide)

/-! ## Numbers -/

/-- The numbers in a text, each as many digits as stand together. -/
def numbersIn (cs : List Char) : List Nat :=
  ((cs.splitOnP (!·.isDigit)).filter (!·.isEmpty)).map (Nat.ofDigitChars 10 · 0)

def numbers (text : String) : List Nat := numbersIn text.toList

theorem numbersIn_append_cons (cs : List Char) {c : Char} (hc : c.isDigit = false)
    (rest : List Char) : numbersIn (cs ++ c :: rest) = numbersIn cs ++ numbersIn rest := by
  simp [numbersIn, List.splitOnP_append_cons, hc]

theorem numbersIn_append_of_plain {mid : List Char} (hmid : mid.all (!·.isDigit) = true)
    (rest : List Char) : numbersIn (mid ++ rest) = numbersIn rest := by
  induction mid with
  | nil => rfl
  | cons c mid ih =>
      rw [List.all_cons, Bool.and_eq_true, Bool.not_eq_true'] at hmid
      exact (numbersIn_append_cons [] hmid.1 _).trans (ih hmid.2)

theorem numbers_append {text mid rest : String} (hne : mid ≠ "")
    (hmid : mid.toList.all (!·.isDigit) = true) :
    numbers (text ++ mid ++ rest) = numbers text ++ numbers rest := by
  simp only [numbers, String.toList_append, List.append_assoc]
  cases hlist : mid.toList with
  | nil => exact absurd (String.toList_eq_nil_iff.mp hlist) hne
  | cons c mid =>
      rw [hlist, List.all_cons, Bool.and_eq_true, Bool.not_eq_true'] at hmid
      rw [List.cons_append, numbersIn_append_cons _ hmid.1, numbersIn_append_of_plain hmid.2]

theorem numbers_append_of_plain {mid : String} (hmid : mid.toList.all (!·.isDigit) = true)
    (text : String) : numbers (text ++ mid) = numbers text := by
  by_cases hne : mid = ""
  · rw [hne, String.append_empty]
  · have happend : numbers (text ++ mid ++ "") = numbers text ++ numbers "" :=
      numbers_append hne hmid
    have hnone : numbers "" = [] := rfl
    rwa [hnone, List.append_nil, String.append_empty] at happend

theorem numbers_toString (n : Nat) : numbers (toString n) = [n] := by
  rw [numbers, numbersIn, List.splitOnP_eq_singleton (by simpa using digits_toString n)]
  simp [Nat.toString_eq_repr, Nat.toList_repr, Nat.toDigits_ne_nil, Nat.ofDigitChars_ten_toDigits]

/-! ## Diagnostics and their rules -/

/-- The diagnostics are those of one source or of files; the paths are theirs. -/
inductive Linted (rules : List Rule) : List String → List Diagnostic → Prop where
  | source {source : SourceFile} {options : LintOptions} {result : LintResult}
    (h : lintSource source rules options = .ok result) :
    Linted rules [source.path] result.diagnostics
  | files (tree : FileTree) (options : LintOptions) (files : List String) :
    Linted rules files (tree.lint rules options files).1.diagnostics

section

variable {rules : List Rule} {options : LintOptions}

theorem exists_rule_of_lintSource {source : SourceFile} {result : LintResult}
    (h : lintSource source rules options = .ok result) {d : Diagnostic}
    (hd : d ∈ result.diagnostics) :
    ∃ rule ∈ rules, d.rule = rule.name ∧ d.message = rule.message := by
  obtain ⟨t, f, hf, hd⟩ := exists_finding_of_lintSource h hd
  obtain ⟨n, rule, hn, a, _, rfl⟩ := exists_rule_of_mem_findingsFrom hf
  rw [hd]
  exact ⟨rule, List.mem_of_getElem? hn, rfl, rfl⟩

theorem exists_rule_of_lintFiles {tree : FileTree} {files : List String} {d : Diagnostic}
    (hd : d ∈ (tree.lintFiles rules options files).1.flatMap (·.diagnostics)) :
    d.path ∈ files ∧ ∃ rule ∈ rules, d.rule = rule.name ∧ d.message = rule.message := by
  induction files generalizing tree with
  | nil => simp [FileTree.lintFiles] at hd
  | cons path files ih =>
      simp only [FileTree.lintFiles, List.flatMap_cons, List.mem_append] at hd
      rcases hd with hd | hd
      · rw [FileTree.lintFile_eq] at hd
        obtain ⟨content, result, _, hlint, d', hd', heq, _⟩ := exists_of_mem_lintHeld hd
        rw [heq]
        refine ⟨?_, ?_⟩
        · simp [path_of_lintSource hlint d' hd']
        · exact exists_rule_of_lintSource (d := d') hlint hd'
      · obtain ⟨hpath, hrule⟩ := ih hd
        exact ⟨List.mem_cons_of_mem _ hpath, hrule⟩

theorem Linted.exists_rule {paths : List String} {ds : List Diagnostic}
    (h : Linted rules paths ds) :
    ∀ d ∈ ds, d.path ∈ paths ∧ ∃ rule ∈ rules, d.rule = rule.name ∧ d.message = rule.message := by
  intro d hd
  cases h with
  | source h =>
      exact ⟨by simp [path_of_lintSource h d hd], exists_rule_of_lintSource h hd⟩
  | files tree options files =>
      simp only [FileTree.lint, Diagnostic.sort, List.mem_mergeSort] at hd
      exact exists_rule_of_lintFiles hd

end

/-! ## Reports -/

namespace Report

theorem counted_eq (n : Nat) (singular plural : String) :
    counted n singular plural = toString n ++ " " ++ if n == 1 then singular else plural := rfl

theorem summary_eq (ds : List Diagnostic) (fileCount : Nat) :
    summary ds fileCount = counted fileCount "file" "files" ++ " inspected, " ++
      counted ds.length "match" "matches" ++ " found" ++
      if correctedCount ds == 0 then "" else ", " ++ toString (correctedCount ds) ++ " fixed" := rfl

theorem numbers_counted (n : Nat) {singular plural : String}
    (hsingular : singular.toList.all (!·.isDigit) = true)
    (hplural : plural.toList.all (!·.isDigit) = true) :
    numbers (counted n singular plural) = [n] := by
  have hnoun : (if n == 1 then singular else plural).toList.all (!·.isDigit) = true := by
    split
    · exact hsingular
    · exact hplural
  rw [counted_eq, numbers_append_of_plain hnoun, numbers_append_of_plain rfl, numbers_toString]

theorem numbers_summary (ds : List Diagnostic) (fileCount : Nat) :
    numbers (summary ds fileCount) = fileCount :: ds.length ::
      if correctedCount ds = 0 then [] else [correctedCount ds] := by
  have hfiles : numbers (counted fileCount "file" "files") = [fileCount] :=
    numbers_counted _ rfl rfl
  have hfound : numbers (counted ds.length "match" "matches") = [ds.length] :=
    numbers_counted _ rfl rfl
  rw [summary_eq, numbers_append (by decide) rfl, numbers_append (by decide) rfl, hfiles, hfound]
  by_cases hzero : correctedCount ds = 0
  · rw [if_pos (by simpa using hzero), if_pos hzero]
    rfl
  · have hfixed : numbers (", " ++ toString (correctedCount ds)) = [correctedCount ds] := by
      have hfront : numbers ("" ++ ", " ++ toString (correctedCount ds)) =
          numbers "" ++ numbers (toString (correctedCount ds)) := numbers_append (by decide) rfl
      rwa [String.empty_append, numbers_toString] at hfront
    rw [if_neg (by simpa using hzero), if_neg hzero, numbers_append_of_plain rfl, hfixed]
    rfl

theorem newlines_counted (n : Nat) {singular plural : String} (hsingular : newlines singular = 0)
    (hplural : newlines plural = 0) : newlines (counted n singular plural) = 0 := by
  have hblank : newlines " " = 0 := rfl
  rw [counted_eq]
  split
  · rw [newlines_append, newlines_append, newlines_toString, hblank, hsingular]
  · rw [newlines_append, newlines_append, newlines_toString, hblank, hplural]

theorem newlines_summary (ds : List Diagnostic) (fileCount : Nat) :
    newlines (summary ds fileCount) = 0 := by
  have hfiles : newlines (counted fileCount "file" "files") = 0 := newlines_counted _ rfl rfl
  have hfound : newlines (counted ds.length "match" "matches") = 0 := newlines_counted _ rfl rfl
  rw [summary_eq]
  split
  · simp only [newlines_append, hfiles, hfound]
    rfl
  · simp only [newlines_append, hfiles, hfound, newlines_toString]
    rfl

theorem newlines_line (d : Diagnostic) :
    newlines (line d) = newlines d.path + newlines d.rule + newlines d.message := by
  have hletter : newlines (toString d.severity.letter) = 0 := by cases d.severity <;> rfl
  have hline : newlines d.line = newlines d.path + newlines d.rule + newlines d.message := by
    have heq : d.line = d.path ++ ":" ++ toString d.location.line ++ ":" ++
      toString d.location.column ++ ": " ++ toString d.severity.letter ++ ": " ++ d.rule ++ ": " ++
      d.message := rfl
    have hcolon : newlines ":" = 0 := rfl
    have hcolonBlank : newlines ": " = 0 := rfl
    simp only [heq, newlines_append, newlines_toString, hletter, hcolon, hcolonBlank]
    omega
  have hmark : newlines " [fixed]" = 0 := rfl
  unfold line
  split <;> simp [hline, hmark]

theorem pieces_text (ds : List Diagnostic) (rest : String) :
    pieces (String.join (ds.map fun d => line d ++ "\n") ++ rest) =
      ds.flatMap (fun d => pieces (line d)) ++ pieces rest := by
  induction ds with
  | nil => simp
  | cons d ds ih =>
      rw [List.map_cons, String.join_cons, String.append_assoc, pieces_append_newline, ih,
        List.flatMap_cons, List.append_assoc]

theorem lines_text (ds : List Diagnostic) (fileCount : Nat) :
    lines (text ds fileCount) =
      ds.flatMap (fun d => pieces (line d)) ++ ["", summary ds fileCount] := by
  have hempty : pieces ("\n" ++ summary ds fileCount) = ["", summary ds fileCount] := by
    have hsplit := pieces_append_newline "" (summary ds fileCount)
    rw [pieces_of_newlines_eq_zero (newlines_summary ds fileCount), String.empty_append] at hsplit
    exact hsplit
  rw [text, lines_append_newline, String.append_assoc, pieces_text, hempty]

theorem length_lines_text (ds : List Diagnostic) (fileCount : Nat) :
    (lines (text ds fileCount)).length =
      ds.length + 2 + (ds.map fun d => newlines (line d)).sum := by
  have hlength : (ds.flatMap fun d => pieces (line d)).length =
      ds.length + (ds.map fun d => newlines (line d)).sum := by
    induction ds with
    | nil => rfl
    | cons d ds ih =>
        simp only [List.flatMap_cons, List.length_append, ih, length_pieces, List.length_cons,
          List.map_cons, List.sum_cons]
        omega
  rw [lines_text, List.length_append, hlength, List.length_cons, List.length_singleton]
  omega

theorem lines_text_eq_iff (ds : List Diagnostic) (fileCount : Nat) :
    lines (text ds fileCount) = ds.map line ++ ["", summary ds fileCount] ↔
      ∀ d ∈ ds, newlines (line d) = 0 := by
  constructor
  · intro h
    -- the report has no more lines than diagnostics only if none of them is cut
    have hlength := length_lines_text ds fileCount
    rw [h] at hlength
    have hsum : (ds.map fun d => newlines (line d)).sum = 0 := by
      simp only [List.length_append, List.length_map, List.length_cons, List.length_nil] at hlength
      omega
    simpa [List.sum_eq_zero_iff_forall_eq_nat] using hsum
  · intro h
    have hpieces : ds.flatMap (fun d => pieces (line d)) = ds.map line := by
      rw [List.map_eq_flatMap]
      exact List.flatMap_congr fun d hd => pieces_of_newlines_eq_zero (h d hd)
    rw [lines_text, hpieces]

theorem newlines_message {config : RuleConfig} {rule : Rule} (h : Rule.Compiled config rule) :
    newlines rule.message = newlines (config.message.getD config.pattern) := by
  rw [h.message_eq]
  cases config.message with
  | some message => rfl
  | none =>
      have heq : s!"matches `{config.pattern}`" = "matches `" ++ config.pattern ++ "`" := rfl
      have hfront : newlines "matches `" = 0 := rfl
      have hback : newlines "`" = 0 := rfl
      simp only [Option.getD_none, heq, newlines_append, hfront, hback]
      omega

/-- A report on what rules have found is made of the lines of its diagnostics, an empty
line and the summary, which tells the counts.  It has one line more for each line feed in
the path, the name or the message of a diagnostic, so each diagnostic has one line exactly
if there are none. -/
theorem text_lines {configs : List RuleConfig} {rules : List Rule} {paths : List String}
    {ds : List Diagnostic} (hrules : Rule.compileAll configs = .ok rules)
    (hds : Linted rules paths ds) (fileCount : Nat) :
    lines (text ds fileCount) =
        ds.flatMap (fun d => pieces (line d)) ++ ["", summary ds fileCount] ∧
      (lines (text ds fileCount)).length =
        ds.length + 2 + (ds.map fun d => newlines (line d)).sum ∧
      (lines (text ds fileCount) = ds.map line ++ ["", summary ds fileCount] ↔
        ∀ d ∈ ds, newlines (line d) = 0) ∧
      (∀ d ∈ ds, d.path ∈ paths ∧ ∃ config ∈ configs, d.rule = config.name ∧
        d.message = config.message.getD s!"matches `{config.pattern}`" ∧
        newlines (line d) = newlines d.path + newlines config.name +
          newlines (config.message.getD config.pattern)) ∧
      numbers (summary ds fileCount) = fileCount :: ds.length ::
        if correctedCount ds = 0 then [] else [correctedCount ds] := by
  refine ⟨lines_text ds fileCount, length_lines_text ds fileCount,
    lines_text_eq_iff ds fileCount, fun d hd => ?_, numbers_summary ds fileCount⟩
  obtain ⟨hpath, rule, hrule, hname, hmessage⟩ := hds.exists_rule d hd
  obtain ⟨config, hconfig, hcompiled⟩ :=
    Rule.exists_config_of_mem (Rule.forall₂_compiled hrules) hrule
  refine ⟨hpath, config, hconfig, hname.trans hcompiled.name_eq,
    hmessage.trans hcompiled.message_eq, ?_⟩
  rw [newlines_line, hname, hmessage, hcompiled.name_eq, newlines_message hcompiled]

/-- The message has three lines. -/
theorem text_lines_long_message :
    ∃ rules result, Rule.compileAll [
        { name := "found", pattern := "b", message := some "b:\n\n?" },
        { name := "absent", pattern := "c" }] = .ok rules ∧
      lintSource ⟨"main.go", utf8Bytes "a b\n".toList⟩ rules ⟨false, false⟩ = .ok result ∧
      result.diagnostics.map line = ["main.go:1:2: W: found: b:\n\n?"] ∧
      (lines (text result.diagnostics 7)).length = 1 + 2 + 2 ∧
      numbers (summary result.diagnostics 7) = [7, 1] := by
  have hlines : (do
        let rules ← (Rule.compileAll [
          { name := "found", pattern := "b", message := some "b:\n\n?" },
          { name := "absent", pattern := "c" }]).toOption
        let result ← (lintSource ⟨"main.go", utf8Bytes "a b\n".toList⟩ rules
          ⟨false, false⟩).toOption
        return (result.diagnostics.map line, correctedCount result.diagnostics)) =
      some (["main.go:1:2: W: found: b:\n\n?"], 0) := by
    decide +kernel
  obtain ⟨rules, result, hrules, hresult, hlines⟩ := exists_ok_of_bind_toOption hlines
  obtain ⟨hlines, hcount⟩ := Prod.mk.inj hlines
  have hlength : result.diagnostics.length = 1 := by
    rw [← List.length_map line, hlines]
    rfl
  have hfeeds : (result.diagnostics.map fun d => newlines (line d)) = [2] := by
    have hmap : (result.diagnostics.map line).map newlines = [2] := by
      rw [hlines]
      rfl
    rwa [List.map_map] at hmap
  obtain ⟨_, htext, _, _, hnumbers⟩ := text_lines hrules (.source hresult) 7
  refine ⟨rules, result, hrules, hresult, hlines, ?_, ?_⟩
  · rw [htext, hlength, hfeeds]
    rfl
  · rw [hnumbers, hlength, if_pos hcount]

/-- One match of a pattern of two lines, and no line of the report is that of the match. -/
theorem text_breaks_pattern_lines :
    ∃ rules result, Rule.compileAll [{ name := "two", pattern := "a\nb" }] = .ok rules ∧
      lintSource ⟨"main.go", utf8Bytes "a b\n".toList⟩ rules ⟨false, false⟩ = .ok result ∧
      result.diagnostics.length = 1 ∧
      lines (text result.diagnostics 1) =
        ["main.go:1:0: W: two: matches `a", "b`", "", "1 file inspected, 1 match found"] := by
  have hlines : (do
        let rules ← (Rule.compileAll [{ name := "two", pattern := "a\nb" }]).toOption
        let result ← (lintSource ⟨"main.go", utf8Bytes "a b\n".toList⟩ rules
          ⟨false, false⟩).toOption
        return (result.diagnostics.length, lines (text result.diagnostics 1))) =
      some (1, ["main.go:1:0: W: two: matches `a", "b`", "",
        "1 file inspected, 1 match found"]) := by
    decide +kernel
  obtain ⟨rules, result, hrules, hresult, hlines⟩ := exists_ok_of_bind_toOption hlines
  obtain ⟨hlength, hlines⟩ := Prod.mk.inj hlines
  exact ⟨rules, result, hrules, hresult, hlength, hlines⟩

end Report

end Stencil
