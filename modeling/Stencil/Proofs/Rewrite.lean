import Stencil.Proofs.Match.Bindings
import Stencil.Proofs.Match.Scan
import Stencil.Proofs.Match.TextEnds
import Stencil.Rewrite

/-!
# Rewriting a match by its own pattern

A pattern that is filled with what it has captured gives back the matched text
up to layout.  So rewriting all its matches leaves the source as it was, up to
layout.
-/

namespace Stencil

/-! ## Bindings -/

section

variable {v : Vocabulary} {t : Target} {p : Pattern} {limit i j : Nat}
  {bound bound' : List (String × TokenRange)}

def Resolves (t : Target) (bindings : NameMap String) (bound : List (String × TokenRange)) : Prop :=
  ∀ name range, bound.lookup name = some range →
    bindings.find? name = some (String.ofList (t.text range.first range.last))

theorem Resolves.before {bindings : NameMap String} (hresolves : Resolves t bindings bound')
    (hlays : Lays v t p limit i bound j bound') : Resolves t bindings bound :=
  fun name range h => hresolves name range (hlays.lookup_eq h)

theorem resolves_toMatch {a : Alignment} (h : (a.bindings.map (·.1)).Nodup) :
    Resolves t (a.toMatch t).bindings a.bindings := by
  intro name range hlookup
  rw [Match.bindings, NameMap.find?_map, a.find?_captures h, hlookup]
  rfl

/-! ## Filling -/

private theorem fill_hole (hT : t.Tiled) {bindings : NameMap String} {h : Hole} {offset k : Nat}
    {rest : Pattern} (hik : i ≤ k) (hkj : k ≤ j)
    (hvalue : bindings.find? h.name = some (String.ofList (t.text i k)))
    (hrest : ∃ out, rest.fill bindings = .ok out ∧ collapse out.toList = collapse (t.text k j)) :
    ∃ out, (Pattern.hole h offset rest).fill bindings = .ok out ∧
      collapse out.toList = collapse (t.text i j) := by
  obtain ⟨out, hout, hcollapse⟩ := hrest
  refine ⟨String.ofList (t.text i k) ++ out, by simp [Pattern.fill, hvalue, hout, Except.map], ?_⟩
  rw [String.toList_append, String.toList_ofList, hT.text_append hik hkj]
  exact collapse_append_congr rfl hcollapse

/-- A pattern filled with its captures is the text it is laid along, up to layout. -/
theorem Lays.fill {source : String} (ht : Target.tokenize source = .ok t)
    {bindings : NameMap String} (hlays : Lays v t p limit i bound j bound')
    (hresolves : Resolves t bindings bound') (hi : t.Inside limit i) :
    ∃ out, p.fill bindings = .ok out ∧ collapse out.toList = collapse (t.text i j) := by
  have hT : t.Tiled := Target.tiled_of_ofTokens? ht
  have hN : t.Nested := Target.nested_of_ofTokens? ht
  induction hlays with
  | nil => exact ⟨"", rfl, by simp [hT.text_self]⟩
  | @text content offset limit i k j rest bound bound' hends hrest ih =>
      have hk := hi.mono hends.1 hends.2.1
      obtain ⟨out, hout, hcollapse⟩ := ih hresolves hk
      refine ⟨content ++ out, by simp [Pattern.fill, hout, Except.map], ?_⟩
      rw [String.toList_append, hT.text_append hends.1 (hrest.inside hN hk).1]
      exact collapse_append_congr hends.2.2.collapse_eq hcollapse
  | @choice h offset limit i k j rest bound bound' hfree hend haccepts hrest ih =>
      have hle := Target.captureEnd_le hN (Nat.le_trans hi.1 (hi.limit_le_size hN)) hend
      have hk := hi.mono hle.1 (Nat.le_trans hle.2 (hi.scopeEnd_le hN))
      exact fill_hole hT hle.1 (hrest.inside hN hk).1
        (hresolves.before hrest h.name ⟨i, k⟩ (by simp)) (ih hresolves hk)
  | @repetition h offset limit i k j rest range bound bound' hbound hik hlimit htext hrest ih =>
      have hk := hi.mono hik hlimit
      have hvalue := hresolves.before hrest h.name range hbound
      rw [← htext] at hvalue
      exact fill_hole hT hik (hrest.inside hN hk).1 hvalue (ih hresolves hk)
  | @block offset limit i j body rest bound bound' bound'' hlt hbrace hbody hrest ihBody ihRest =>
      -- Four pieces: both braces, what the group holds, and what lies behind it.
      have hforward := hN.lt_partner hbrace
      have hrestInside := hi.mono (by omega) (hi.partner_lt hN hbrace)
      obtain ⟨inner, hinner, hcollapseInner⟩ := ihBody (hresolves.before hrest)
        (.opening_succ hN hbrace)
      obtain ⟨outer, houter, hcollapseOuter⟩ := ihRest hresolves hrestInside
      have hclosing := Target.text_of_closing_brace ht (hN.kind?_partner hbrace)
      have hcut : t.text i j = t.text i (i + 1) ++ (t.text (i + 1) (t.partner i) ++
          (t.text (t.partner i) (t.partner i + 1) ++ t.text (t.partner i + 1) j)) := by
        have hj := (hrest.inside hN hrestInside).1
        rw [hT.text_append (Nat.le_succ i) (by omega : i + 1 ≤ j),
          hT.text_append hforward (by omega : t.partner i ≤ j),
          hT.text_append (Nat.le_succ (t.partner i)) hj]
      refine ⟨"\x7b" ++ inner ++ "\x7d" ++ outer,
        by simp [Pattern.fill, hinner, houter, Except.map], ?_⟩
      rw [hcut, Target.text_of_opening_brace ht hbrace, hclosing]
      simp only [String.toList_append, List.append_assoc]
      exact collapse_append_congr rfl (collapse_append_congr hcollapseInner
        (collapse_append_congr rfl hcollapseOuter))

end

/-! ## Rewriting -/

section

variable {source : String} {t : Target}

/-- A match that stands at tokens of the target and whose template gives back
its text, up to layout. -/
def GivesBack (template : Pattern) (t : Target) (m : Match) : Prop :=
  ∃ i j, i ≤ j ∧ j ≤ t.size ∧ m.span = t.span i j ∧
    ∃ out, template.fill m.bindings = .ok out ∧ collapse out.toList = collapse (t.text i j)

theorem givesBack_of_mem_findAll (ht : Target.tokenize source = .ok t) {v : Vocabulary}
    {p : Pattern} {overlapping : Bool} {m : Match}
    (hm : m ∈ (Matcher.ofPattern v p).findAll t overlapping) : GivesBack p t m := by
  have hT : t.Tiled := Target.tiled_of_ofTokens? ht
  have hN : t.Nested := Target.nested_of_ofTokens? ht
  obtain ⟨a, ha, rfl⟩ := List.mem_map.mp hm
  obtain ⟨hlays, hinside, hlt, hle⟩ := Matcher.lays_of_mem_alignments hT hN ha
  exact ⟨a.first, a.last, Nat.le_of_lt hlt, hle, rfl,
    hlays.fill ht (resolves_toMatch (hlays.nodup .nil)) hinside⟩

theorem Pattern.rewriteFrom_nil_of_tokens (hT : t.Tiled) (template : Pattern) {c : Nat}
    (hc : c ≤ t.size) :
    template.rewriteFrom t.source.toList (t.offset c) [] = .ok (t.text c t.size) := by
  rw [rewriteFrom, hT.source_eq_text, hT.text_append (Nat.zero_le c) hc,
    hT.offset_eq_byteLength c, dropBytes_append]

theorem Pattern.rewriteFrom_cons_of_tokens (hT : t.Tiled) {template : Pattern} {m : Match}
    (ms : List Match) {c i j : Nat} (hci : c ≤ i) (hij : i ≤ j) (hj : j ≤ t.size)
    (hspan : m.span = t.span i j) {replacement : String}
    (hfill : template.fill m.bindings = .ok replacement) :
    template.rewriteFrom t.source.toList (t.offset c) (m :: ms) =
      (template.rewriteFrom t.source.toList (t.offset j) ms).map fun after =>
        t.text c i ++ replacement.toList ++ after := by
  have hforward := hT.offset_mono hci
  rw [rewriteFrom, hspan, Target.span, if_neg (by simpa using hforward), hfill,
    hT.sliceBytes_source hci (Nat.le_trans hij hj)]

/-- The step of a rewrite: what is rewritten from token `c` on is the source from
there on, up to layout. -/
theorem rewriteFrom_of_givesBack (hT : t.Tiled) {template : Pattern} {found : List Match}
    (hfound : ∀ m ∈ found, GivesBack template t m) {c : Nat} (hc : c ≤ t.size) :
    ∃ out, template.rewriteFrom t.source.toList (t.offset c) found = .ok out ∧
      collapse out = collapse (t.text c t.size) := by
  induction found generalizing c with
  | nil => exact ⟨_, Pattern.rewriteFrom_nil_of_tokens hT template hc, rfl⟩
  | cons m found ih =>
      obtain ⟨i, j, hij, hj, hspan, replacement, hfill, hcollapse⟩ := hfound m (by simp)
      have hrest := fun {c} => ih (fun m' hm' => hfound m' (by simp [hm'])) (c := c)
      by_cases hbehind : m.span.start < t.offset c
      · simpa only [Pattern.rewriteFrom, if_pos hbehind] using hrest hc
      · rw [hspan] at hbehind
        have hci : c ≤ i := hT.le_of_offset_le hc (Nat.le_of_not_lt hbehind)
        obtain ⟨after, hafter, hcollapseAfter⟩ := hrest hj
        refine ⟨t.text c i ++ replacement.toList ++ after, ?_, ?_⟩
        · rw [Pattern.rewriteFrom_cons_of_tokens hT found hci hij hj hspan hfill, hafter]
          rfl
        · rw [List.append_assoc, hT.text_append hci (Nat.le_trans hij hj), hT.text_append hij hj]
          exact collapse_append_congr rfl (collapse_append_congr hcollapse hcollapseAfter)

/-- A match is an instance of its pattern up to layout, and a rewrite of all
matches to their own pattern changes nothing but layout. -/
theorem findAll_instances (ht : Target.tokenize source = .ok t) (v : Vocabulary) (p : Pattern)
    (overlapping : Bool) :
    (∀ m ∈ (Matcher.ofPattern v p).findAll t overlapping, ∃ out,
        p.fill m.bindings = .ok out ∧
          collapse out.toList =
            collapse (sliceBytes m.span.start m.span.stop source.toList)) ∧
      ∃ out, p.rewriteAll source ((Matcher.ofPattern v p).findAll t overlapping) = .ok out ∧
        collapse out.toList = collapse source.toList := by
  have hT : t.Tiled := Target.tiled_of_ofTokens? ht
  obtain rfl := Target.source_of_ofTokens? ht
  constructor
  · intro m hm
    obtain ⟨i, j, hij, hj, hspan, out, hfill, hcollapse⟩ := givesBack_of_mem_findAll ht hm
    refine ⟨out, hfill, ?_⟩
    rw [hspan, Target.span, hT.sliceBytes_source hij hj, hcollapse]
  · have hfound : ∀ m ∈ (Matcher.ofPattern v p).findAll t overlapping, GivesBack p t m :=
      fun m hm => givesBack_of_mem_findAll ht hm
    obtain ⟨out, hout, hcollapse⟩ := rewriteFrom_of_givesBack hT hfound (Nat.zero_le t.size)
    rw [hT.offset_zero] at hout
    refine ⟨String.ofList out, by rw [Pattern.rewriteAll, hout]; rfl, ?_⟩
    rw [String.toList_ofList, hcollapse, ← hT.source_eq_text]

/-- Both matches here are laid out otherwise than the pattern. -/
theorem findAll_instances_braced_lists :
    ∃ t p, Target.tokenize "a  = {x,  x}; b\n= {y,  y}" = .ok t ∧
      Pattern.compile ":[n] = {:[[v]], :[v]}" = .ok p ∧
      ((Matcher.ofPattern .builtin p).findAll t false).map (·.span) = [⟨0, 12⟩, ⟨14, 25⟩] ∧
      (∀ m ∈ (Matcher.ofPattern .builtin p).findAll t false, ∃ out,
        p.fill m.bindings = .ok out ∧
          collapse out.toList = collapse (sliceBytes m.span.start m.span.stop
            "a  = {x,  x}; b\n= {y,  y}".toList)) ∧
      ∃ out, p.rewriteAll "a  = {x,  x}; b\n= {y,  y}"
          ((Matcher.ofPattern .builtin p).findAll t false) = .ok out ∧
        collapse out.toList = collapse "a  = {x,  x}; b\n= {y,  y}".toList := by
  have hspans : (do
        let t ← (Target.tokenize "a  = {x,  x}; b\n= {y,  y}").toOption
        let p ← (Pattern.compile ":[n] = {:[[v]], :[v]}").toOption
        return ((Matcher.ofPattern .builtin p).findAll t false).map (·.span)) =
      some [⟨0, 12⟩, ⟨14, 25⟩] := by decide +kernel
  obtain ⟨t, p, ht, hp, hspans⟩ := exists_ok_of_bind_toOption hspans
  have hinstances := findAll_instances ht .builtin p false
  exact ⟨t, p, ht, hp, hspans, hinstances.1, hinstances.2⟩

end

end Stencil
