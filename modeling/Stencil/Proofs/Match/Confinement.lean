import Stencil.Proofs.Match.Bindings
import Stencil.Proofs.Match.Scan

/-!
# Confined captures

A capture never reaches out of the group it begins in and never takes one bracket of
a pair without the other.  The captures of a match lie in the source in the order in
which their names come in the pattern, none of them over another.
-/

namespace Stencil

open Relation

def Pattern.firstHole? (p : Pattern) (name : String) : Option Hole :=
  (p.holes.map (·.1)).find? (·.name == name)

namespace Target

variable {t : Target} {i j : Nat}

/-! ## Brackets -/

/-- The brackets among these tokens are pairs of each other. -/
def PairsWithin (t : Target) (i j : Nat) : Prop :=
  ∀ k d, i ≤ k → k < j → t.kind? k = some (.opening d) ∨ t.kind? k = some (.closing d) →
    i ≤ t.partner k ∧ t.partner k < j

theorem pairsWithin_of_balanced (h : t.Nested) (hbalanced : Balanced t.kinds i j) :
    t.PairsWithin i j := by
  rintro k d hik hkj (ho | hc)
  · have hforward := h.lt_partner ho
    refine ⟨by omega, Nat.lt_of_not_le fun hlater => ?_⟩
    -- The bracket would still be open at the end, and so before the beginning.
    have hmem := ((h.opened_partner ho).2.2 j hkj hlater).subset List.mem_cons_self
    rw [hbalanced.1] at hmem
    have := (opening_of_mem_opened hmem).1
    omega
  · have hcloses := h.partner_closer hc
    have hback := hcloses.lt
    refine ⟨Nat.le_of_not_lt fun hbefore => ?_, by omega⟩
    -- The bracket was open before the beginning, and it is no longer so behind its closer.
    obtain ⟨d', hopen⟩ := hcloses.opening
    rw [← kind?_eq] at hopen
    have hpartner := h.partner_opener hcloses
    have hmem := ((h.opened_partner hopen).2.2 i hbefore (by omega)).subset List.mem_cons_self
    have hstays := (hbalanced.2 (k + 1) (by omega) (by omega)).subset hmem
    exact hcloses.not_mem_opened (Nat.lt_succ_self k) hstays

theorem begins_of_unit (h : t.Nested) (hend : t.CaptureEnd i j .one) :
    i < j ∧ t.kind? i ≠ some .blank ∧ ∀ d, t.kind? i ≠ some (.closing d) := by
  cases hend with
  | group hgroup =>
      obtain ⟨d, ho, rfl⟩ := hgroup
      have := h.lt_partner ho
      exact ⟨by omega, by simp [ho], by simp [ho]⟩
  | single hkind hj =>
      rcases hkind with hk | hk <;> exact ⟨by omega, by simp [hk], by simp [hk]⟩
  | glued hkind hgroups =>
      have hforward : i + 1 ≤ j := by
        induction hgroups with
        | refl => exact Nat.le_refl _
        | tail _ hgroup ih =>
            obtain ⟨d, ho, rfl⟩ := hgroup
            have := h.lt_partner ho
            omega
      rcases hkind with hk | hk <;> exact ⟨hforward, by simp [hk], by simp [hk]⟩

end Target

section

variable {v : Vocabulary} {t : Target} {p : Pattern} {limit i j : Nat}
  {bound bound' : List (String × TokenRange)}

/-! ## First holes -/

theorem Pattern.firstHole?_hole (h : Hole) (offset : Nat) (rest : Pattern) (name : String) :
    (hole h offset rest).firstHole? name =
      if h.name = name then some h else rest.firstHole? name := by
  by_cases hname : h.name = name <;> simp [firstHole?, holes, hname]

theorem Pattern.firstHole?_block (offset : Nat) (body rest : Pattern) (name : String) :
    (block offset body rest).firstHole? name =
      (body.firstHole? name).or (rest.firstHole? name) := by
  simp [firstHole?, holes]

theorem Pattern.firstHole?_eq_none_iff {name : String} :
    p.firstHole? name = none ↔ name ∉ p.holeNames := by
  simp [firstHole?, holeNames]

theorem Lays.firstHole_of_mem (hlays : Lays v t p limit i bound j bound')
    {entry : String × TokenRange} (hentry : entry ∈ bound') :
    entry ∈ bound ∨
      entry.1 ∉ bound.map (·.1) ∧
        ∃ h, p.firstHole? entry.1 = some h ∧
          t.CaptureEnd entry.2.first entry.2.last h.quantifier := by
  induction hlays with
  | nil => exact .inl hentry
  | text _ _ ih => exact ih hentry
  | @choice h _ _ i k _ _ _ _ hfree hend _ _ ih =>
      rcases ih hentry with hmem | ⟨hnew, h', hfirst, hend'⟩
      · rcases List.mem_cons.mp hmem with rfl | hmem
        · refine .inr ⟨not_mem_names_of_lookup hfree, h, ?_, hend⟩
          rw [Pattern.firstHole?_hole, if_pos rfl]
        · exact .inl hmem
      · rw [List.map_cons, List.mem_cons, not_or] at hnew
        refine .inr ⟨hnew.2, h', ?_, hend'⟩
        rw [Pattern.firstHole?_hole, if_neg (Ne.symm hnew.1), hfirst]
  | @repetition h _ _ _ _ _ _ _ _ _ hbound _ _ _ _ ih =>
      rcases ih hentry with hmem | ⟨hnew, h', hfirst, hend'⟩
      · exact .inl hmem
      · have hne : h.name ≠ entry.1 := by
          rintro hname
          exact hnew (hname ▸ mem_names_of_lookup hbound)
        refine .inr ⟨hnew, h', ?_, hend'⟩
        rw [Pattern.firstHole?_hole, if_neg hne, hfirst]
  | @block _ _ _ _ body _ _ _ _ _ _ hbody _ ihBody ihRest =>
      rcases ihRest hentry with hmem | ⟨hnew, h', hfirst, hend'⟩
      · rcases ihBody hmem with hmem | ⟨hnew, h', hfirst, hend'⟩
        · exact .inl hmem
        · refine .inr ⟨hnew, h', ?_, hend'⟩
          rw [Pattern.firstHole?_block, hfirst, Option.some_or]
      · rw [hbody.names_eq, Pattern.mem_namesFrom_iff, not_or] at hnew
        refine .inr ⟨hnew.1, h', ?_, hend'⟩
        rw [Pattern.firstHole?_block, Pattern.firstHole?_eq_none_iff.mpr hnew.2, Option.none_or,
          hfirst]

/-! ## Order -/

structure Ordered (bound : List (String × TokenRange)) (i : Nat) : Prop where
  before : ∀ entry ∈ bound, entry.2.last ≤ i
  apart : bound.Pairwise fun later earlier => earlier.2.last ≤ later.2.first

theorem Ordered.mono (h : Ordered bound i) (hij : i ≤ j) : Ordered bound j :=
  ⟨fun entry hentry => Nat.le_trans (h.before entry hentry) hij, h.apart⟩

theorem Ordered.bind (h : Ordered bound i) (hij : i ≤ j) (name : String) :
    Ordered ((name, ⟨i, j⟩) :: bound) j :=
  ⟨List.forall_mem_cons.mpr ⟨Nat.le_refl j, (h.mono hij).before⟩,
    List.pairwise_cons.mpr ⟨h.before, h.apart⟩⟩

theorem Lays.ordered (hN : t.Nested) (hlays : Lays v t p limit i bound j bound')
    (hi : t.Inside limit i) (hbound : Ordered bound i) : Ordered bound' j := by
  induction hlays with
  | nil => exact hbound
  | text hends _ ih => exact ih (hi.mono hends.1 hends.2.1) (hbound.mono hends.1)
  | @choice h _ _ _ _ _ _ _ _ _ hend _ _ ih =>
      have hle := Target.captureEnd_le hN (Nat.le_trans hi.1 (hi.limit_le_size hN)) hend
      exact ih (hi.mono hle.1 (Nat.le_trans hle.2 (hi.scopeEnd_le hN))) (hbound.bind hle.1 h.name)
  | repetition _ hik hlimit _ _ ih => exact ih (hi.mono hik hlimit) (hbound.mono hik)
  | block _ hbrace _ _ ihBody ihRest =>
      have hforward := hN.lt_partner hbrace
      have hbody := ihBody (.opening_succ hN hbrace) (hbound.mono (Nat.le_succ _))
      exact ihRest (hi.mono (by omega) (hi.partner_lt hN hbrace)) (hbody.mono (Nat.le_succ _))

/-! ## Captures of a match -/

theorem Lays.binding_of_mem (hN : t.Nested) (hlays : Lays v t p limit i [] j bound)
    (hi : t.Inside limit i) {entry : String × TokenRange} (hentry : entry ∈ bound) :
    (i ≤ entry.2.first ∧ entry.2.first ≤ entry.2.last ∧ entry.2.last ≤ j) ∧
      ∃ h, p.firstHole? entry.1 = some h ∧
        t.CaptureEnd entry.2.first entry.2.last h.quantifier := by
  rcases hlays.firstHole_of_mem hentry with hnil | ⟨_, hhole⟩
  · simp at hnil
  · exact ⟨hlays.within_of_mem hN hi hentry, hhole⟩

theorem Lays.names_reverse_eq (hlays : Lays v t p limit i [] j bound) :
    (bound.map (·.1)).reverse = p.holeNames := by
  rw [hlays.names_eq, Pattern.reverse_namesFrom]
  simp [List.removeAll, Pattern.holeNames]

theorem Target.Tiled.text_capture (hT : t.Tiled) {r : TokenRange} (hr : r.first ≤ r.last)
    (hlast : r.last ≤ t.size) : (r.capture t).text = t.slice (r.capture t).span := by
  change String.ofList (t.text r.first r.last) =
    String.ofList (sliceBytes (t.offset r.first) (t.offset r.last) t.source.toList)
  rw [hT.sliceBytes_source hr hlast]

/-- A capture takes whole tokens of the match, which lie in one group and hold both
brackets of a pair or none, and a hole for one unit takes at least one.  The captures
lie in the source as the names come in the pattern, each before the next. -/
theorem captures_confined {source : String} {tokens : List Target.Token}
    (ht : Target.ofTokens? source tokens = .ok t) (v : Vocabulary) (p : Pattern)
    (overlapping : Bool) {k : Nat} {a : Alignment}
    (ha : a ∈ (Matcher.ofPattern v p).alignments t overlapping k) :
    (∀ name c, (a.toMatch t).captures.find? name = some c →
      ∃ i j, (a.first ≤ i ∧ i ≤ j ∧ j ≤ a.last) ∧ j ≤ t.scopeEnd i ∧
        c.span = t.span i j ∧ c.text = t.slice c.span ∧ t.PairsWithin i j ∧
        ∀ h, p.firstHole? name = some h → h.quantifier = .one →
          i < j ∧ t.kind? i ≠ some .blank ∧ ∀ d, t.kind? i ≠ some (.closing d)) ∧
      ((a.toMatch t).captures.entries.map (·.1)).Perm p.holeNames ∧
      ∃ cs : List Capture, p.holeNames.map (a.toMatch t).captures.find? = cs.map some ∧
        cs.Pairwise fun c c' => c.span.stop ≤ c'.span.start := by
  have hT : t.Tiled := Target.tiled_of_ofTokens? ht
  have hN : t.Nested := Target.nested_of_ofTokens? ht
  obtain ⟨hlays, hinside, _, hsize⟩ := Matcher.lays_of_mem_alignments hT hN ha
  have hnodup : (a.bindings.map (·.1)).Nodup := hlays.nodup .nil
  refine ⟨?_, Alignment.names_captures_perm hlays,
    a.bindings.reverse.map (·.2.capture t), ?_, ?_⟩
  · intro name c hc
    rw [Alignment.find?_captures hnodup, Option.map_eq_some_iff] at hc
    obtain ⟨r, hr, rfl⟩ := hc
    obtain ⟨⟨hfirst, hforward, hlast⟩, h, hhole, hend⟩ :=
      hlays.binding_of_mem hN hinside (mem_of_lookup_eq_some hr)
    have hlastSize := Nat.le_trans hlast hsize
    refine ⟨r.first, r.last, ⟨hfirst, hforward, hlast⟩, ?_, rfl,
      hT.text_capture hforward hlastSize, ?_, ?_⟩
    · exact (Target.captureEnd_le hN (Nat.le_trans hforward hlastSize) hend).2
    · apply Target.pairsWithin_of_balanced hN
      exact Target.balanced_of_atoms hN (Target.atoms_of_captureEnd hend)
    · intro h' hhole' hunit
      obtain rfl := Option.some.inj (hhole.symm.trans hhole')
      exact Target.begins_of_unit hN (hunit ▸ hend)
  · rw [← hlays.names_reverse_eq, ← List.map_reverse, List.map_map, List.map_map]
    apply List.map_congr_left
    intro entry hentry
    have hlookup := lookup_eq_some_of_mem hnodup (List.mem_reverse.mp hentry)
    simp [Alignment.find?_captures hnodup, hlookup]
  · have hordered : Ordered a.bindings a.last := hlays.ordered hN hinside ⟨by simp, .nil⟩
    rw [List.pairwise_map, List.pairwise_reverse]
    exact hordered.apart.imp fun hle => hT.offset_mono hle

/-- The map of captures has them in the order of the names, `b`, `e` and `g`; in the
source and in the pattern `g` comes first, a word with two groups. -/
theorem captures_confined_glued_groups :
    ∃ t p a, Target.ofTokens? "f({a}, b)[c] {x; y}" (Target.scan "f({a}, b)[c] {x; y}") = .ok t ∧
      Pattern.compile ":[g] {:[[b]] :[e]}" = .ok p ∧
      a ∈ (Matcher.ofPattern .builtin p).alignments t false 0 ∧
      p.holeNames = ["g", "b", "e"] ∧ p.firstHole? "g" = some ⟨"g", .any, .one⟩ ∧
      (a.toMatch t).captures.find? "g" = some ⟨⟨0, 12⟩, "f({a}, b)[c]"⟩ ∧
      (∃ i j, i < j ∧ j ≤ t.scopeEnd i ∧ ⟨0, 12⟩ = t.span i j ∧
        "f({a}, b)[c]" = t.slice ⟨0, 12⟩ ∧ t.PairsWithin i j) ∧
      ∃ cs : List Capture, p.holeNames.map (a.toMatch t).captures.find? = cs.map some ∧
        cs.Pairwise fun c c' => c.span.stop ≤ c'.span.start := by
  have hruns : (do
        let t ← (Target.tokenize "f({a}, b)[c] {x; y}").toOption
        let p ← (Pattern.compile ":[g] {:[[b]] :[e]}").toOption
        return (((Matcher.ofPattern .builtin p).alignments t false 0).map
            (fun a => (a.toMatch t).captures.find? "g"), p.holeNames, p.firstHole? "g")) =
      some ([some ⟨⟨0, 12⟩, "f({a}, b)[c]"⟩], ["g", "b", "e"],
        some ⟨"g", .any, .one⟩) := by decide +kernel
  obtain ⟨t, p, ht, hp, hruns⟩ := exists_ok_of_bind_toOption hruns
  simp only [Prod.mk.injEq] at hruns
  obtain ⟨hfound, hnames, hfirst⟩ := hruns
  obtain ⟨a, later, halignments, hcapture, _⟩ := List.map_eq_cons_iff.mp hfound
  have ha : a ∈ (Matcher.ofPattern .builtin p).alignments t false 0 := by simp [halignments]
  obtain ⟨hcaptures, _, hordered⟩ := captures_confined ht .builtin p false ha
  obtain ⟨i, j, _, hscope, hspan, htext, hpairs, hunit⟩ := hcaptures _ _ hcapture
  exact ⟨t, p, a, ht, hp, ha, hnames, hfirst, hcapture,
    ⟨i, j, (hunit _ hfirst rfl).1, hscope, hspan, htext, hpairs⟩, hordered⟩

end

end Stencil
