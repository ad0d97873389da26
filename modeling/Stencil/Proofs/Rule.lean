import Mathlib.Data.List.Forall2
import Stencil.Proofs.Lint
import Stencil.Proofs.Rewrite
import Stencil.Proofs.Success

/-!
# Rules and their rewrites

A rule that compiles has a template only if the pattern binds every hole of it, and
every match binds all the names of the pattern.  So no match of a rule with a
template goes without its rewrite.
-/

namespace Stencil

/-! ## Compiled rules -/

structure Rule.Compiled (config : RuleConfig) (rule : Rule) : Prop where
  name_eq : rule.name = config.name
  pattern_eq : ∃ written, Pattern.compile config.pattern = .ok written ∧
    constrained written config.constraints.entries = .ok rule.pattern
  template_eq : ∀ template, rule.template = some template ↔
    ∃ text, config.rewrite = some text ∧ compileTemplate rule.pattern text = .ok template
  message_eq : rule.message = config.message.getD s!"matches `{config.pattern}`"
  severity_eq : Severity.ofString? config.severity = some rule.severity
  includes_eq : compileGlobs config.includes = .ok rule.includes
  excludes_eq : compileGlobs config.excludes = .ok rule.excludes

private theorem Rule.compiled_of_globs {config : RuleConfig} {rule : Rule}
    {written pattern : Pattern} {template : Option Pattern} {severity : Severity}
    (hwritten : Pattern.compile config.pattern = .ok written)
    (hpattern : constrained written config.constraints.entries = .ok pattern)
    (htemplate : ∀ p, template = some p ↔
      ∃ text, config.rewrite = some text ∧ compileTemplate pattern text = .ok p)
    (hseverity : Severity.ofString? config.severity = some severity)
    (h : (do
      let includes ← compileGlobs config.includes
      let excludes ← compileGlobs config.excludes
      return {
        name := config.name
        pattern, template, severity, includes, excludes
        message := config.message.getD s!"matches `{config.pattern}`"
      }) = Except.ok rule) : Compiled config rule := by
  obtain ⟨includes, hincludes, h⟩ := exists_of_bind_eq_ok h
  obtain ⟨excludes, hexcludes, h⟩ := exists_of_bind_eq_ok h
  obtain rfl := Except.ok.inj h
  exact ⟨rfl, ⟨written, hwritten, hpattern⟩, htemplate, rfl, hseverity, hincludes, hexcludes⟩

theorem Rule.compiled_of_compile {config : RuleConfig} {rule : Rule}
    (h : compile config = .ok rule) : Compiled config rule := by
  obtain ⟨written, hwritten, h⟩ := exists_of_bind_eq_ok h
  obtain ⟨pattern, hpattern, h⟩ := exists_of_bind_eq_ok h
  have hwritten : Pattern.compile config.pattern = .ok written := by
    cases hcompile : Pattern.compile config.pattern with
    | error e => simp [hcompile, Except.mapError] at hwritten
    | ok p => simpa [hcompile, Except.mapError] using hwritten
  cases hseverity : Severity.ofString? config.severity with
  | none =>
      simp only [hseverity] at h
      split at h
      all_goals
        obtain ⟨template, _, h⟩ := exists_of_bind_eq_ok h
        obtain ⟨severity, hthrown, _⟩ := exists_of_bind_eq_ok h
        cases hthrown
  | some severity =>
      simp only [hseverity] at h
      split at h
      · rename_i hrewrite
        obtain ⟨template, htemplate, h⟩ := exists_of_bind_eq_ok h
        obtain rfl := Except.ok.inj htemplate
        exact compiled_of_globs hwritten hpattern (by simp [hrewrite]) hseverity h
      · rename_i text hrewrite
        obtain ⟨template, htemplate, h⟩ := exists_of_bind_eq_ok h
        cases hcompile : compileTemplate pattern text with
        | error e => simp [hcompile, Except.map] at htemplate
        | ok p =>
            simp only [hcompile, Except.map, Except.ok.injEq] at htemplate
            subst htemplate
            exact compiled_of_globs hwritten hpattern (by simp [hrewrite, hcompile]) hseverity h

theorem Rule.forall₂_compiled {configs : List RuleConfig} {rules : List Rule}
    (h : compileAll configs = .ok rules) : List.Forall₂ Compiled configs rules := by
  induction configs generalizing rules with
  | nil =>
      obtain rfl := Except.ok.inj h
      exact .nil
  | cons config rest ih =>
      unfold compileAll at h
      split at h
      · simp at h
      · rename_i rule hrule
        obtain ⟨others, hrest, rfl⟩ := exists_ok_of_map_eq_ok h
        exact .cons (compiled_of_compile hrule) (ih hrest)

theorem Rule.exists_config_of_mem {configs : List RuleConfig} {rules : List Rule} {rule : Rule}
    (h : List.Forall₂ Compiled configs rules) (hrule : rule ∈ rules) :
    ∃ config ∈ configs, Compiled config rule := by
  induction h with
  | nil => simp at hrule
  | cons hcompiled _ ih =>
      rcases List.mem_cons.mp hrule with rfl | hrule
      · exact ⟨_, by simp, hcompiled⟩
      · obtain ⟨config, hmem, hcompiled⟩ := ih hrule
        exact ⟨config, List.mem_cons_of_mem _ hmem, hcompiled⟩

theorem Pattern.mem_holeNames_of_unboundHoles {template pattern : Pattern}
    (h : template.unboundHoles pattern = []) :
    ∀ hole ∈ template.holes, hole.1.name ∈ pattern.holeNames := by
  intro hole hhole
  have hbound := List.filter_eq_nil_iff.mp h hole hhole
  simpa [hasHole, holeNames] using hbound

theorem Rule.Compiled.hasHole {config : RuleConfig} {rule : Rule} (h : Compiled config rule)
    {template : Pattern} (htemplate : rule.template = some template) :
    ∀ hole ∈ template.holes, hole.1.name ∈ rule.pattern.holeNames := by
  obtain ⟨text, _, hcompile⟩ := (h.template_eq template).mp htemplate
  unfold compileTemplate at hcompile
  split at hcompile
  · simp at hcompile
  · split at hcompile
    · simp at hcompile
    · rename_i hunbound
      obtain rfl := Except.ok.inj hcompile
      exact Pattern.mem_holeNames_of_unboundHoles hunbound

/-! ## Filling templates -/

theorem Pattern.exists_fill (p : Pattern) {bindings : NameMap String}
    (h : ∀ hole ∈ p.holes, ∃ value, bindings.find? hole.1.name = some value) :
    ∃ out, p.fill bindings = .ok out := by
  induction p with
  | nil => exact ⟨"", rfl⟩
  | hole hole offset rest ih =>
      obtain ⟨value, hvalue⟩ := h (hole, offset) (by simp [holes])
      obtain ⟨out, hout⟩ := ih fun hole' hmem => h hole' (by simp [holes, hmem])
      exact ⟨value ++ out, by simp [fill, hvalue, hout, Except.map]⟩
  | text content offset rest ih =>
      obtain ⟨out, hout⟩ := ih h
      exact ⟨content ++ out, by simp [fill, hout, Except.map]⟩
  | block offset body rest ihBody ihRest =>
      obtain ⟨inner, hinner⟩ := ihBody fun hole hmem => h hole (by simp [holes, hmem])
      obtain ⟨outer, houter⟩ := ihRest fun hole hmem => h hole (by simp [holes, hmem])
      exact ⟨"\x7b" ++ inner ++ "\x7d" ++ outer, by simp [fill, hinner, houter, Except.map]⟩

/-- A template without a hole of its own is filled from every match. -/
theorem Lays.exists_fill {v : Vocabulary} {t : Target} {p template : Pattern} {a : Alignment}
    (hlays : Lays v t p t.size a.first [] a.last a.bindings)
    (h : ∀ hole ∈ template.holes, hole.1.name ∈ p.holeNames) :
    ∃ out, template.fill (a.toMatch t).bindings = .ok out := by
  refine template.exists_fill fun hole hhole => ?_
  obtain ⟨range, hrange⟩ := hlays.exists_lookup (h hole hhole)
  exact ⟨_, resolves_toMatch (hlays.nodup .nil) _ _ hrange⟩

theorem Rule.Compiled.exists_fill {config : RuleConfig} {rule : Rule} (h : Compiled config rule)
    {t : Target} (hT : t.Tiled) (hN : t.Nested) {overlapping : Bool} {i : Nat} {a : Alignment}
    (ha : a ∈ rule.matcher.alignments t overlapping i) {template : Pattern}
    (htemplate : rule.template = some template) :
    ∃ out, template.fill (a.toMatch t).bindings = .ok out :=
  (Matcher.lays_of_mem_alignments hT hN ha).1.exists_fill (h.hasHole htemplate)

/-! ## Findings of rules -/

theorem exists_rule_of_mem_findingsFrom {source : SourceFile} {t : Target} {overlapping : Bool}
    {index : Nat} {rules : List Rule} {f : Finding}
    (hf : f ∈ findingsFrom source t overlapping index rules) :
    ∃ n rule, rules[n]? = some rule ∧
      ∃ a ∈ rule.matcher.alignments t overlapping 0,
        f = Finding.ofAlignment source t (index + n) rule a := by
  induction rules generalizing index with
  | nil => simp [findingsFrom] at hf
  | cons rule rules ih =>
      rw [findingsFrom] at hf
      rcases List.mem_append.mp hf with hf | hf
      · obtain ⟨a, ha, rfl⟩ := List.mem_map.mp hf
        split at ha
        · exact ⟨0, rule, rfl, a, ha, rfl⟩
        · simp at ha
      · obtain ⟨n, other, hn, a, ha, rfl⟩ := ih hf
        exact ⟨n + 1, other, hn, a, ha, by rw [Nat.add_right_comm, Nat.add_assoc]⟩

theorem Finding.rewritten_ofAlignment (source : SourceFile) {t : Target} (index : Nat) {rule : Rule}
    {a : Alignment}
    (h : ∀ template, rule.template = some template →
      ∃ out, template.fill (a.toMatch t).bindings = .ok out) :
    (ofAlignment source t index rule a).failure = none ∧
      (ofAlignment source t index rule a).diagnostic.replacement.isSome =
        rule.template.isSome := by
  cases htemplate : rule.template with
  | none => simp [ofAlignment, htemplate]
  | some template =>
      obtain ⟨out, hout⟩ := h template htemplate
      simp [ofAlignment, htemplate, hout]

theorem logs_settle (source : SourceFile) (fix : Bool) (found : List Finding) :
    (settle source fix found).logs = found.filterMap (Finding.log? source) := by
  dsimp only [settle]
  split <;> rfl

/-- A match of a compiled rule captures exactly the holes of the pattern, and the
template, if there is one, can be filled from it.  So linting never has a failed
rewrite to log, and every finding of a rule with a template has its rewrite. -/
theorem Rule.rewrites_of_compile {rules : List Rule}
    (hrules : ∀ rule ∈ rules, ∃ config, compile config = .ok rule) :
    (∀ rule ∈ rules, ∀ source t, Target.tokenize source = .ok t →
      ∀ overlapping i, ∀ m ∈ (rule.matcher.alignments t overlapping i).map (·.toMatch t),
        (m.captures.entries.map (·.1)).Perm rule.pattern.holeNames ∧
          ∀ template, rule.template = some template →
            ∃ out, template.fill m.bindings = .ok out) ∧
      ∀ source t, SourceFile.target source = .ok t → ∀ options : LintOptions, ∃ result,
        lintSource source rules options = .ok result ∧ result.logs = [] ∧
          (∃ corrected : Finding → Bool, result.diagnostics = Diagnostic.sort
            ((findingsFrom source t options.overlapping 0 rules).map fun f =>
              { f.diagnostic with corrected := corrected f })) ∧
          ∀ f ∈ findingsFrom source t options.overlapping 0 rules, f.failure = none ∧
            ∃ rule, rules[f.rule]? = some rule ∧ f.diagnostic.rule = rule.name ∧
              f.diagnostic.replacement.isSome = rule.template.isSome := by
  constructor
  · intro rule hrule source t ht overlapping i m hm
    have hT : t.Tiled := Target.tiled_of_ofTokens? ht
    have hN : t.Nested := Target.nested_of_ofTokens? ht
    obtain ⟨config, hconfig⟩ := hrules rule hrule
    obtain ⟨a, ha, rfl⟩ := List.mem_map.mp hm
    exact ⟨Alignment.names_captures_perm (Matcher.lays_of_mem_alignments hT hN ha).1,
      fun template htemplate => (compiled_of_compile hconfig).exists_fill hT hN ha htemplate⟩
  · intro source t ht options
    obtain ⟨cs, _, htokens⟩ := exists_tokenize_of_target ht
    have hT : t.Tiled := Target.tiled_of_ofTokens? htokens
    have hN : t.Nested := Target.nested_of_ofTokens? htokens
    have hfindings : ∀ f ∈ findingsFrom source t options.overlapping 0 rules, f.failure = none ∧
        ∃ rule, rules[f.rule]? = some rule ∧ f.diagnostic.rule = rule.name ∧
          f.diagnostic.replacement.isSome = rule.template.isSome := by
      intro f hf
      obtain ⟨n, rule, hn, a, ha, rfl⟩ := exists_rule_of_mem_findingsFrom hf
      obtain ⟨config, hconfig⟩ := hrules rule (List.mem_of_getElem? hn)
      have hfills : ∀ template, rule.template = some template →
          ∃ out, template.fill (a.toMatch t).bindings = .ok out :=
        fun _ htemplate => (compiled_of_compile hconfig).exists_fill hT hN ha htemplate
      obtain ⟨hfailure, hreplacement⟩ := Finding.rewritten_ofAlignment source (0 + n) hfills
      exact ⟨hfailure, rule, by rw [← hn]; exact congrArg _ (Nat.zero_add n), rfl, hreplacement⟩
    refine ⟨_, by rw [lintSource, ht], ?_, ?_, hfindings⟩
    · rw [logs_settle, List.filterMap_eq_nil_iff]
      intro f hf
      simp [Finding.log?, (hfindings f hf).1]
    · exact ⟨_, diagnostics_settle source options.fix fun f hf => (mem_findingsFrom hT hN hf).2.2⟩

/-- The pattern repeats a hole and constrains it, and the template uses it twice. -/
theorem Rule.rewrites_of_compile_doubled_argument :
    ∃ rule t t', compile {
        name := "twice", pattern := "f(:[x], :[x]) { :[[body]] }",
        rewrite := some "g(:[x]) { :[[body]]; :[x] }",
        constraints := .ofList [("x", "identifier")] } = .ok rule ∧
      Target.tokenize "f(a, c) { d } f(a, a) { b } f(1, 1) { e }" = .ok t ∧
      (rule.matcher.alignments t true 0).map (fun a => (a.toMatch t).span) = [⟨14, 27⟩] ∧
      (∀ m ∈ (rule.matcher.alignments t true 0).map (·.toMatch t),
        (m.captures.entries.map (·.1)).Perm rule.pattern.holeNames ∧
          ∀ template, rule.template = some template →
            ∃ out, template.fill m.bindings = .ok out) ∧
      SourceFile.target ⟨"a.go", utf8Bytes "f(a, a) { b }".toList⟩ = .ok t' ∧
      (findingsFrom ⟨"a.go", utf8Bytes "f(a, a) { b }".toList⟩ t' true 0 [rule]).map
          (·.diagnostic.replacement) = [some "g(a) { b; a }"] ∧
      ∃ result,
        lintSource ⟨"a.go", utf8Bytes "f(a, a) { b }".toList⟩ [rule] ⟨true, true⟩ = .ok result ∧
          result.logs = [] ∧
          ∀ f ∈ findingsFrom ⟨"a.go", utf8Bytes "f(a, a) { b }".toList⟩ t' true 0 [rule],
            f.failure = none ∧ ∃ rule', [rule][f.rule]? = some rule' ∧
              f.diagnostic.rule = rule'.name ∧
              f.diagnostic.replacement.isSome = rule'.template.isSome := by
  have hspans : (do
        let rule ← (compile {
          name := "twice", pattern := "f(:[x], :[x]) { :[[body]] }",
          rewrite := some "g(:[x]) { :[[body]]; :[x] }",
          constraints := .ofList [("x", "identifier")] }).toOption
        let t ← (Target.tokenize "f(a, c) { d } f(a, a) { b } f(1, 1) { e }").toOption
        return (rule.matcher.alignments t true 0).map fun a => (a.toMatch t).span) =
      some [⟨14, 27⟩] := by decide +kernel
  have hreplacements : (do
        let rule ← (compile {
          name := "twice", pattern := "f(:[x], :[x]) { :[[body]] }",
          rewrite := some "g(:[x]) { :[[body]]; :[x] }",
          constraints := .ofList [("x", "identifier")] }).toOption
        let t ← (SourceFile.target ⟨"a.go", utf8Bytes "f(a, a) { b }".toList⟩).toOption
        return (findingsFrom ⟨"a.go", utf8Bytes "f(a, a) { b }".toList⟩ t true 0 [rule]).map
          (·.diagnostic.replacement)) = some [some "g(a) { b; a }"] := by decide +kernel
  obtain ⟨rule, t, hrule, ht, hspans⟩ := exists_ok_of_bind_toOption hspans
  obtain ⟨rule', t', hrule', ht', hreplacements⟩ := exists_ok_of_bind_toOption hreplacements
  obtain rfl := Except.ok.inj (hrule.symm.trans hrule')
  have hrules : ∀ rule' ∈ [rule], ∃ config, compile config = .ok rule' := by
    simpa using ⟨_, hrule⟩
  obtain ⟨hmatches, hlint⟩ := rewrites_of_compile hrules
  obtain ⟨result, hresult, hlogs, _, hfindings⟩ := hlint _ t' ht' ⟨true, true⟩
  exact ⟨rule, t, t', hrule, ht, hspans, hmatches rule (by simp) _ t ht true 0,
    ht', hreplacements, result, hresult, hlogs, hfindings⟩

end Stencil
