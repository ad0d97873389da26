import Stencil.Proofs.Match.Selection
import Stencil.Proofs.Rule

/-!
# The ways of rewriting

A rewrite of all matches in one pass and a fix by edits leave the same text, and it
makes no difference to either whether the scan gives matches that overlap: both
take those that `keepApart` takes.
-/

namespace Stencil

/-! ## Matches that are kept -/

theorem keepApart_keepApart (stop : Nat) (ms : List Match) :
    keepApart stop (keepApart stop ms) = keepApart stop ms := by
  induction ms generalizing stop with
  | nil => rfl
  | cons m ms ih =>
      by_cases hbefore : m.span.start < stop
      · simp only [keepApart, if_pos hbefore, ih]
      · simp only [keepApart, if_neg hbefore, ih]

theorem Matcher.keepApart_findAll {t : Target} (hT : t.Tiled) (m : Matcher) (overlapping : Bool) :
    keepApart 0 (m.findAll t overlapping) = m.findAll t false := by
  have hapart : m.findAll t false = keepApart 0 (m.findAll t true) :=
    m.map_alignments_apart hT 0 (Nat.zero_le _)
  cases overlapping with
  | true => exact hapart.symm
  | false => rw [hapart, keepApart_keepApart]

namespace Pattern

theorem rewriteFrom_keepApart (template : Pattern) (source : List Char) (cursor : Nat)
    (ms : List Match) :
    template.rewriteFrom source cursor (keepApart cursor ms) =
      template.rewriteFrom source cursor ms := by
  induction ms generalizing cursor with
  | nil => rfl
  | cons m ms ih =>
      by_cases hbefore : m.span.start < cursor
      · simp only [keepApart, rewriteFrom, if_pos hbefore, ih]
      · simp only [keepApart, rewriteFrom, if_neg hbefore, ih]

def edit? (template : Pattern) (rule : Nat) (m : Match) : Option Edit :=
  (template.fill m.bindings).toOption.map fun out => ⟨m.span.start, m.span.stop, out, rule⟩

theorem edit?_eq_some {template : Pattern} {m : Match} {out : String}
    (h : template.fill m.bindings = .ok out) (rule : Nat) :
    template.edit? rule m = some ⟨m.span.start, m.span.stop, out, rule⟩ := by
  simp [edit?, h, Except.toOption]

end Pattern

theorem Finding.edit?_ofAlignment {source : SourceFile} {t : Target} {rule : Rule}
    {template : Pattern} (htemplate : rule.template = some template) (index : Nat) (a : Alignment) :
    (ofAlignment source t index rule a).edit? = template.edit? index (a.toMatch t) := by
  cases hfill : template.fill (a.toMatch t).bindings <;>
    simp [edit?, ofAlignment, Pattern.edit?, htemplate, hfill, Except.toOption]

/-! ## Both ways -/

section

variable {t : Target} {template : Pattern} {ms : List Match}

def Fills (template : Pattern) (t : Target) (m : Match) : Prop :=
  ∃ i j, i < j ∧ j ≤ t.size ∧ m.span = t.span i j ∧ ∃ out, template.fill m.bindings = .ok out

theorem keep_edits (hms : ∀ m ∈ ms, Fills template t m) (rule : Nat) (last : Option Nat) :
    Edit.keep last (ms.filterMap (template.edit? rule)) =
      (keepApart (last.getD 0) ms).filterMap (template.edit? rule) := by
  induction ms generalizing last with
  | nil => rfl
  | cons m ms ih =>
      obtain ⟨_, _, _, _, _, out, hfill⟩ := hms m (by simp)
      have hrest := ih fun m' hm' => hms m' (by simp [hm'])
      have hedit := Pattern.edit?_eq_some hfill rule
      have hlast : last.any (m.span.start < ·) = true ↔ m.span.start < last.getD 0 := by
        cases last <;> simp
      rw [List.filterMap_cons_some hedit, Edit.keep, keepApart]
      by_cases hbefore : m.span.start < last.getD 0
      · rw [if_pos (hlast.mpr hbefore), if_pos hbefore, hrest]
      · rw [if_neg (mt hlast.mp hbefore), if_neg hbefore, hrest, List.filterMap_cons_some hedit]
        rfl

/-- The step of both ways: from token `c` on they leave the same text. -/
theorem rewriteFrom_eq_applyFrom (hT : t.Tiled) (source : List UInt8) (rule : Nat)
    (hms : ∀ m ∈ ms, Fills template t m) {c : Nat} (hc : c ≤ t.size) :
    ∃ out, template.rewriteFrom t.source.toList (t.offset c) ms = .ok out ∧
      EditSet.applyFrom source (t.offset c) (utf8Bytes (t.text c t.size))
          ((keepApart (t.offset c) ms).filterMap (template.edit? rule)) = utf8Bytes out := by
  induction ms generalizing c with
  | nil => exact ⟨_, Pattern.rewriteFrom_nil_of_tokens hT template hc, rfl⟩
  | cons m ms ih =>
      obtain ⟨i, j, hij, hj, hspan, replacement, hfill⟩ := hms m (by simp)
      have hrest := fun {c} => ih (fun m' hm' => hms m' (by simp [hm'])) (c := c)
      by_cases hbehind : m.span.start < t.offset c
      · simpa only [Pattern.rewriteFrom, keepApart, if_pos hbehind] using hrest hc
      · have hstart : m.span.start = t.offset i := by rw [hspan]; rfl
        have hstop : m.span.stop = t.offset j := by rw [hspan]; rfl
        have hci : c ≤ i := hT.le_of_offset_le hc (hstart ▸ Nat.le_of_not_lt hbehind)
        obtain ⟨after, hafter, happly⟩ := hrest hj
        refine ⟨t.text c i ++ replacement.toList ++ after, ?_, ?_⟩
        · rw [Pattern.rewriteFrom_cons_of_tokens hT ms hci (Nat.le_of_lt hij) hj hspan hfill,
            hafter]
          rfl
        · rw [keepApart, if_neg hbehind, hstop,
            List.filterMap_cons_some (Pattern.edit?_eq_some hfill rule),
            applyFrom_cons_of_tokens hT source _ hci (Nat.le_of_lt hij) hj hstart hstop, happly,
            ← utf8Bytes_append]

end

/-! ## One rule -/

section

variable {source : SourceFile} {t : Target} {rule : Rule} {template : Pattern}

theorem findingsFrom_singleton (happlies : rule.appliesTo source.path = true) (overlapping : Bool) :
    findingsFrom source t overlapping 0 [rule] =
      (rule.matcher.alignments t overlapping 0).map (Finding.ofAlignment source t 0 rule) := by
  simp [findingsFrom, happlies]

theorem Rule.Compiled.fills {config : RuleConfig} (h : Compiled config rule) (hT : t.Tiled)
    (hN : t.Nested) (htemplate : rule.template = some template) (overlapping : Bool) :
    ∀ m ∈ rule.matcher.findAll t overlapping, Fills template t m := by
  intro m hm
  obtain ⟨a, ha, rfl⟩ := List.mem_map.mp hm
  obtain ⟨_, _, hlt, hle⟩ := Matcher.lays_of_mem_alignments hT hN ha
  exact ⟨a.first, a.last, hlt, hle, rfl, h.exists_fill hT hN ha htemplate⟩

theorem keptEdits_findings {config : RuleConfig} (hrule : Rule.Compiled config rule) (hT : t.Tiled)
    (hN : t.Nested) (htemplate : rule.template = some template)
    (happlies : rule.appliesTo source.path = true) (overlapping : Bool) :
    (keptEdits (findingsFrom source t overlapping 0 [rule])).edits =
      (rule.matcher.findAll t false).filterMap (template.edit? 0) := by
  have hedits : (findingsFrom source t overlapping 0 [rule]).filterMap Finding.edit? =
      (rule.matcher.findAll t overlapping).filterMap (template.edit? 0) := by
    rw [findingsFrom_singleton happlies, Matcher.findAll, List.filterMap_map, List.filterMap_map]
    congr 1
    funext a
    exact Finding.edit?_ofAlignment htemplate 0 a
  have hsorted : ((rule.matcher.findAll t overlapping).filterMap (template.edit? 0)).Pairwise
      fun e f => e.le f = true := by
    rw [List.pairwise_filterMap]
    refine (rule.matcher.pairwise_start_findAll hT overlapping).imp ?_
    intro m m' hlt e he e' he'
    obtain ⟨_, _, rfl⟩ := Option.map_eq_some_iff.mp he
    obtain ⟨_, _, rfl⟩ := Option.map_eq_some_iff.mp he'
    exact Edit.le_iff.mpr (.inl hlt)
  rw [keptEdits, EditSet.ofList]
  dsimp only
  rw [hedits, List.mergeSort_of_pairwise hsorted,
    keep_edits (hrule.fills hT hN htemplate overlapping), Option.getD_none,
    Matcher.keepApart_findAll hT]

theorem getD_fixed_settle (source : SourceFile) (found : List Finding) :
    (settle source true found).fixed.getD source.content =
      (keptEdits found).apply source.content := by
  rw [fixed_settle]
  split <;> simp_all

/-- All the ways to rewrite the matches of a rule leave the same text: in one pass or
by fixing, and with or without matches that overlap. -/
theorem Rule.rewrites_agree {config : RuleConfig} (hrule : compile config = .ok rule)
    (htemplate : rule.template = some template) (ht : source.target = .ok t)
    (happlies : rule.appliesTo source.path = true) :
    source.text? = .ok t.source.toList ∧ ∃ out : String,
      (∀ overlapping,
        template.rewriteAll t.source (rule.matcher.findAll t overlapping) = .ok out) ∧
      ∀ overlapping, ∃ result, lintSource source [rule] ⟨overlapping, true⟩ = .ok result ∧
        result.fixed.getD source.content = utf8Bytes out.toList := by
  have hcompiled := compiled_of_compile hrule
  obtain ⟨cs, hcontent, htokens⟩ := exists_tokenize_of_target ht
  have hT : t.Tiled := Target.tiled_of_ofTokens? htokens
  have hN : t.Nested := Target.nested_of_ofTokens? htokens
  have hsource : t.source = String.ofList cs := Target.source_of_ofTokens? htokens
  obtain ⟨out, hrewrite, happly⟩ := rewriteFrom_eq_applyFrom hT source.content 0
    (hcompiled.fills hT hN htemplate false) (Nat.zero_le t.size)
  rw [hT.offset_zero] at hrewrite happly
  refine ⟨?_, String.ofList out, ?_, ?_⟩
  · rw [SourceFile.text?, hcontent, decode_utf8Bytes, hsource, String.toList_ofList]
  · intro overlapping
    rw [Pattern.rewriteAll, ← Pattern.rewriteFrom_keepApart, Matcher.keepApart_findAll hT,
      hrewrite]
    rfl
  · intro overlapping
    refine ⟨_, by rw [lintSource, ht], ?_⟩
    rw [getD_fixed_settle, EditSet.apply,
      keptEdits_findings hcompiled hT hN htemplate happlies, String.toList_ofList, ← happly,
      Matcher.keepApart_findAll hT, ← hT.source_eq_text, hsource, String.toList_ofList, hcontent]

end

/-- All three calls match, and of the two that are nested the outer one is rewritten. -/
theorem Rule.rewrites_agree_nested_calls :
    ∃ rule template t, compile {
        name := "swap", pattern := "f(:[x], :[[y]])", rewrite := some "f(:[y], :[x])" } =
        .ok rule ∧
      rule.template = some template ∧ rule.appliesTo "a.go" = true ∧
      SourceFile.target ⟨"a.go", utf8Bytes "é f(a, f(b, c)) f(1, 2)".toList⟩ = .ok t ∧
      (rule.matcher.findAll t true).map (·.span) = [⟨3, 16⟩, ⟨8, 15⟩, ⟨17, 24⟩] ∧
      (∀ overlapping, template.rewriteAll t.source (rule.matcher.findAll t overlapping) =
        .ok "é f(f(b, c), a) f(2, 1)") ∧
      ∀ overlapping, ∃ result,
        lintSource ⟨"a.go", utf8Bytes "é f(a, f(b, c)) f(1, 2)".toList⟩ [rule]
            ⟨overlapping, true⟩ = .ok result ∧
          result.fixed.getD (utf8Bytes "é f(a, f(b, c)) f(1, 2)".toList) =
            utf8Bytes "é f(f(b, c), a) f(2, 1)".toList := by
  have hspans : (do
        let rule ← (compile {
          name := "swap", pattern := "f(:[x], :[[y]])", rewrite := some "f(:[y], :[x])" }).toOption
        let t ← (SourceFile.target
          ⟨"a.go", utf8Bytes "é f(a, f(b, c)) f(1, 2)".toList⟩).toOption
        return (rule.matcher.findAll t true).map (·.span)) =
      some [⟨3, 16⟩, ⟨8, 15⟩, ⟨17, 24⟩] := by decide +kernel
  have hrewrite : (do
        let rule ← (compile {
          name := "swap", pattern := "f(:[x], :[[y]])", rewrite := some "f(:[y], :[x])" }).toOption
        let t ← (SourceFile.target
          ⟨"a.go", utf8Bytes "é f(a, f(b, c)) f(1, 2)".toList⟩).toOption
        return rule.template.map fun template =>
          (template.rewriteAll t.source (rule.matcher.findAll t true)).toOption) =
      some (some (some "é f(f(b, c), a) f(2, 1)")) := by decide +kernel
  obtain ⟨rule, t, hrule, ht, hspans⟩ := exists_ok_of_bind_toOption hspans
  obtain ⟨rule', t', hrule', ht', hrewrite⟩ := exists_ok_of_bind_toOption hrewrite
  obtain rfl := Except.ok.inj (hrule.symm.trans hrule')
  obtain rfl := Except.ok.inj (ht.symm.trans ht')
  have hcompiled := compiled_of_compile hrule
  have happlies : rule.appliesTo "a.go" = true := by
    have hincludes : [] = rule.includes := Except.ok.inj hcompiled.includes_eq
    have hexcludes : [] = rule.excludes := Except.ok.inj hcompiled.excludes_eq
    simp [appliesTo, ← hincludes, ← hexcludes]
  obtain ⟨template, htemplate, hrewrite⟩ := Option.map_eq_some_iff.mp hrewrite
  obtain ⟨_, out, hall, hfixed⟩ := rewrites_agree hrule htemplate ht happlies
  obtain rfl : out = "é f(f(b, c), a) f(2, 1)" := by
    simpa [hall true, Except.toOption] using hrewrite
  exact ⟨rule, template, t, hrule, htemplate, happlies, ht, hspans, hall, hfixed⟩

end Stencil
