import Mathlib.Data.List.Forall2
import Stencil.Proofs.Match.Selection
import Stencil.Proofs.Match.TextEnds

/-!
# Layout of a target

Other runs of blanks in the blanks between tokens change no match.  A text of a
pattern takes a run as a whole, wherever in the tokens it lies, the ends of a capture
are a matter of kinds alone, and no kind that is built in tells one run from another.
Only a hole whose name is bound does, because it takes the bound text as it is.
-/

namespace Stencil

open Relation

/-- The same kind and text, but a blank may hold another run. -/
def Lexeme.Relaid (l l' : Lexeme) : Prop :=
  l.kind = l'.kind ∧
    (l.text = l'.text ∨
      l.kind = .blank ∧ isBlankRun l.text = true ∧ isBlankRun l'.text = true)

instance (l l' : Lexeme) : Decidable (l.Relaid l') :=
  inferInstanceAs (Decidable (l.kind = l'.kind ∧
    (l.text = l'.text ∨
      l.kind = .blank ∧ isBlankRun l.text = true ∧ isBlankRun l'.text = true)))

def Target.Relaid (t t' : Target) : Prop :=
  List.Forall₂ Lexeme.Relaid t.lexemes.toList t'.lexemes.toList

instance (t t' : Target) : Decidable (t.Relaid t') :=
  inferInstanceAs (Decidable (List.Forall₂ Lexeme.Relaid t.lexemes.toList t'.lexemes.toList))

structure Target.Alike (t t' : Target) : Prop where
  size_eq : t.size = t'.size
  kind?_eq : ∀ i, t.kind? i = t'.kind? i
  partner_eq : ∀ {i d}, t.kind? i = some (.opening d) → t.partner i = t'.partner i
  scopeEnd_eq : ∀ i, t.scopeEnd i = t'.scopeEnd i
  collapse_text : ∀ i j, collapse (t.text i j) = collapse (t'.text i j)

/-- Matches of two targets that cover the same tokens and bind the same tokens to each
name. -/
structure Match.SameTokens (t t' : Target) (m m' : Match) : Prop where
  span : ∃ i j, i < j ∧ j ≤ t.size ∧ m.span = t.span i j ∧ m'.span = t'.span i j
  captures : ∀ name, ∃ range : Option TokenRange,
    (∀ r ∈ range, r.first ≤ r.last ∧ r.last ≤ t.size) ∧
      m.captures.find? name = range.map (·.capture t) ∧
      m'.captures.find? name = range.map (·.capture t')

/-! ## Texts -/

theorem Reads.congr {content taken taken' rest rest' : List Char} (h : Reads content taken rest)
    (htaken : collapse taken = collapse taken') (hrest : collapse rest = collapse rest') :
    Reads content taken' rest' := by
  induction h generalizing taken' with
  | nil =>
      obtain rfl := collapse_eq_nil_iff.mp htaken.symm
      exact .nil rest'
  | plain hc _ ih =>
      rw [collapse_cons_plain hc] at htaken
      obtain ⟨taken', rfl, hlater⟩ := exists_plain_of_collapse hc htaken.symm
      exact .plain hc (ih hlater.symm hrest)
  | blanks hc hblanks hplain _ ih =>
      rw [collapse_blanks_append hblanks, hplain.of_append.dropWhile_eq] at htaken
      obtain ⟨blanks', taken', rfl, hblanks', hlater⟩ := exists_blanks_of_collapse htaken.symm
      refine .blanks hc hblanks' ?_ (ih hlater.symm hrest)
      rw [beginsPlain_iff_collapse] at hplain ⊢
      rwa [collapse_append_congr hlater hrest.symm]

theorem not_isName_of_isBlank {c : Char} (hc : isBlank c = true) :
    isNameStart c = false ∧ isNameChar c = false := by
  simp only [isBlank, Bool.or_eq_true, beq_iff_eq] at hc
  obtain (((rfl | rfl) | rfl) | rfl) | rfl := hc <;> decide

theorem all_isNameChar_collapse (cs : List Char) :
    (collapse cs).all isNameChar = cs.all isNameChar := by
  induction cs using blankRuns_induction with
  | nil => rfl
  | plain c cs hc ih => rw [collapse_cons_plain hc, List.all_cons, List.all_cons, ih]
  | blanks c cs hc ih =>
      have hspace : isBlank ' ' = true := by decide
      rw [collapse_cons_blank hc, List.all_cons, List.all_cons, (not_isName_of_isBlank hc).2,
        (not_isName_of_isBlank hspace).2]
      rfl

theorem isName_collapse (cs : List Char) : isName (collapse cs) = isName cs := by
  cases cs with
  | nil => rfl
  | cons c cs =>
      cases hc : isBlank c with
      | true =>
          have hspace : isBlank ' ' = true := by decide
          rw [collapse_cons_blank hc, isName, isName, (not_isName_of_isBlank hc).1,
            (not_isName_of_isBlank hspace).1]
          rfl
      | false => rw [collapse_cons_plain hc, isName, isName, all_isNameChar_collapse]

theorem accepts_congr {v : Vocabulary} (hv : Vocabulary.builtin.strategies <+: v.strategies)
    {kind : CaptureKind} (hkind : kind = .any ∨ kind = .identifier) {text text' : List Char}
    (h : collapse text = collapse text') : v.accepts kind text = v.accepts kind text' := by
  rcases hkind with rfl | rfl
  · rfl
  · obtain ⟨later, hlater⟩ := hv
    have hname : isName text = isName text' := by
      rw [← isName_collapse, h, isName_collapse]
    unfold Vocabulary.accepts
    rw [← hlater]
    simp [Vocabulary.builtin, CaptureKind.identifier, hname]

/-! ## Targets -/

namespace Target

variable {t t' : Target} {i j limit : Nat}

theorem Relaid.kinds_eq (h : t.Relaid t') : t.kinds = t'.kinds := by
  unfold kinds
  rw [← List.forall₂_eq_eq_eq, List.forall₂_map_left_iff, List.forall₂_map_right_iff]
  exact List.Forall₂.imp (fun _ _ hlexeme => hlexeme.1) h

theorem collapse_joined {ls ls' : List Lexeme} (h : List.Forall₂ Lexeme.Relaid ls ls') :
    collapse (joined ls) = collapse (joined ls') := by
  induction h with
  | nil => rfl
  | @cons l l' ls ls' hlexeme _ ih =>
      rw [joined_cons, joined_cons]
      apply collapse_append_congr _ ih
      rcases hlexeme.2 with htext | ⟨_, hblanks, hblanks'⟩
      · rw [htext]
      · rw [← l.text.append_nil, ← l'.text.append_nil, collapse_blanks_append hblanks,
          collapse_blanks_append hblanks']

theorem Relaid.alike (hT : t.Tiled) (hN : t.Nested) (hT' : t'.Tiled) (hN' : t'.Nested)
    (h : t.Relaid t') : t.Alike t' := by
  have hkinds := h.kinds_eq
  have hpartner : ∀ {o d}, t.kind? o = some (.opening d) → t.partner o = t'.partner o := by
    intro o d ho
    have hcloses := hN.closes_partner ho
    rw [hkinds] at hcloses
    exact (hN'.partner_opener hcloses).symm
  refine ⟨?_, ?_, hpartner, ?_, ?_⟩
  · rw [← length_kinds, hkinds, length_kinds]
  · intro i
    rw [kind?_eq, kind?_eq, hkinds]
  · intro i
    rw [hN.scopeEnd_eq, hN'.scopeEnd_eq, innermost, innermost, ← hkinds]
    congr 1
    apply List.map_congr_left
    rintro ⟨o, d⟩ hopen
    have ho := (opening_of_mem_opened hopen).2
    rw [← kind?_eq] at ho
    exact hpartner ho
  · intro i j
    rw [hT.text_eq, hT'.text_eq]
    exact collapse_joined (List.forall₂_take _ (List.forall₂_drop _ h))

namespace Alike

theorem symm (h : t.Alike t') : t'.Alike t where
  size_eq := h.size_eq.symm
  kind?_eq i := (h.kind?_eq i).symm
  partner_eq ho := (h.partner_eq ((h.kind?_eq _).trans ho)).symm
  scopeEnd_eq i := (h.scopeEnd_eq i).symm
  collapse_text i j := (h.collapse_text i j).symm

theorem textEnds (h : t.Alike t') {content : List Char} (hends : t.TextEnds content limit i j) :
    t'.TextEnds content limit i j :=
  ⟨hends.1, hends.2.1, hends.2.2.congr (h.collapse_text i j) (h.collapse_text j limit)⟩

theorem group (h : t.Alike t') (hgroup : t.Group i j) : t'.Group i j := by
  obtain ⟨d, ho, rfl⟩ := hgroup
  exact ⟨d, (h.kind?_eq i).symm.trans ho, by rw [h.partner_eq ho]⟩

theorem atom (h : t.Alike t') (hatom : t.Atom i j) : t'.Atom i j := by
  rcases hatom with hgroup | ⟨k, hk, hother⟩
  · exact .inl (h.group hgroup)
  · exact .inr ⟨k, (h.kind?_eq i).symm.trans hk, hother⟩

theorem captureEnd (h : t.Alike t') {q : Quantifier} (hend : t.CaptureEnd i j q) :
    t'.CaptureEnd i j q := by
  cases hend with
  | group hgroup => exact .group (h.group hgroup)
  | single hkind hj =>
      rw [h.kind?_eq] at hkind
      exact .single hkind hj
  | glued hkind hgroups =>
      rw [h.kind?_eq] at hkind
      exact .glued hkind (ReflTransGen.mono (fun _ _ => h.group) _ _ hgroups)
  | atoms hatoms hj =>
      rw [h.scopeEnd_eq] at hj
      exact .atoms (ReflTransGen.mono (fun _ _ => h.atom) _ _ hatoms) hj

end Alike

end Target

/-! ## Patterns -/

section

variable {v : Vocabulary} {t t' : Target} {p : Pattern} {limit i j : Nat}
  {bound bound' : List (String × TokenRange)}

theorem Lays.fresh_of_block {offset : Nat} {body rest : Pattern}
    (hbody : Lays v t body limit i bound j bound')
    (hfresh : ((Pattern.block offset body rest).holes.map (·.1.name) ++ bound.map (·.1)).Nodup) :
    (body.holes.map (·.1.name) ++ bound.map (·.1)).Nodup ∧
      (rest.holes.map (·.1.name) ++ bound'.map (·.1)).Nodup := by
  rw [Pattern.holes, List.map_append, List.append_assoc, List.nodup_append] at hfresh
  obtain ⟨hbodyNodup, hrestNodup, hdisjoint⟩ := hfresh
  rw [List.nodup_append] at hrestNodup
  obtain ⟨hrestNodup, hboundNodup, hapart⟩ := hrestNodup
  constructor
  · rw [List.nodup_append]
    exact ⟨hbodyNodup, hboundNodup, fun name hname name' hname' =>
      hdisjoint name hname name' (List.mem_append_right _ hname')⟩
  · rw [List.nodup_append]
    refine ⟨hrestNodup, hbody.nodup hboundNodup, ?_⟩
    intro name hname name' hname'
    rw [hbody.names_eq, Pattern.mem_namesFrom_iff, Pattern.holeNames, List.mem_eraseDups] at hname'
    rcases hname' with hname' | hname'
    · exact hapart name hname name' hname'
    · exact (hdisjoint name' hname' name (List.mem_append_left _ hname)).symm

theorem Lays.alike (h : t.Alike t') (hv : Vocabulary.builtin.strategies <+: v.strategies)
    (hkinds : ∀ hole ∈ p.holes, hole.1.kind = .any ∨ hole.1.kind = .identifier)
    (hfresh : (p.holes.map (·.1.name) ++ bound.map (·.1)).Nodup)
    (hlays : Lays v t p limit i bound j bound') : Lays v t' p limit i bound j bound' := by
  induction hlays with
  | nil => exact .nil
  | text hends _ ih => exact .text (h.textEnds hends) (ih hkinds hfresh)
  | @choice hole offset _ i k _ _ _ _ hfree hend haccepts _ ih =>
      rw [accepts_congr hv (hkinds (hole, offset) List.mem_cons_self) (h.collapse_text i k)]
        at haccepts
      refine .choice hfree (h.captureEnd hend) haccepts (ih ?_ ?_)
      · exact fun other hother => hkinds other (List.mem_cons_of_mem _ hother)
      · exact List.perm_middle.nodup_iff.mpr hfresh
  | repetition hbound _ _ _ _ _ =>
      -- The name of the hole is not bound yet.
      have hnew := (List.nodup_cons.mp hfresh).1
      exact absurd (List.mem_append_right _ (mem_names_of_lookup hbound)) hnew
  | block hi hbrace hbody _ ihBody ihRest =>
      obtain ⟨hfreshBody, hfreshRest⟩ := hbody.fresh_of_block hfresh
      have hbodyLays := ihBody
        (fun hole hhole => hkinds hole (List.mem_append_left _ hhole)) hfreshBody
      have hrestLays := ihRest
        (fun hole hhole => hkinds hole (List.mem_append_right _ hhole)) hfreshRest
      rw [h.partner_eq hbrace] at hbodyLays hrestLays
      rw [h.kind?_eq] at hbrace
      exact .block hi hbrace hbodyLays hrestLays

theorem aligns_alike_iff (h : t.Alike t')
    (hv : Vocabulary.builtin.strategies <+: v.strategies)
    (hkinds : ∀ hole ∈ p.holes, hole.1.kind = .any ∨ hole.1.kind = .identifier)
    (hnodup : (p.holes.map (·.1.name)).Nodup) (a : Alignment) :
    Aligns v t p i a ↔ Aligns v t' p i a := by
  have hfresh : (p.holes.map (·.1.name) ++ ([] : List (String × TokenRange)).map (·.1)).Nodup := by
    simpa using hnodup
  unfold Aligns
  rw [← h.size_eq]
  exact and_congr_right fun _ =>
    ⟨fun hlays => hlays.alike h hv hkinds hfresh,
      fun hlays => hlays.alike h.symm hv hkinds hfresh⟩

end

/-! ## Matches -/

section

variable {v : Vocabulary} {t t' : Target} {p : Pattern} {i : Nat} {a : Alignment}

theorem sameTokens_toMatch (hN : t.Nested)
    (hlays : Lays v t p t.size a.first [] a.last a.bindings) (hinside : t.Inside t.size a.first)
    (hlt : a.first < a.last) (hsize : a.last ≤ t.size) :
    Match.SameTokens t t' (a.toMatch t) (a.toMatch t') := by
  have hnodup : (a.bindings.map (·.1)).Nodup := hlays.nodup .nil
  refine ⟨⟨a.first, a.last, hlt, hsize, rfl, rfl⟩, fun name => ⟨a.bindings.lookup name, ?_, ?_, ?_⟩⟩
  · intro r hr
    obtain ⟨_, hforward, hlast⟩ := hlays.within_of_mem hN hinside (mem_of_lookup_eq_some hr)
    exact ⟨hforward, Nat.le_trans hlast hsize⟩
  · exact Alignment.find?_captures hnodup name
  · exact Alignment.find?_captures hnodup name

theorem matchAt?_alike (hT : t.Tiled) (hN : t.Nested) (hT' : t'.Tiled) (hN' : t'.Nested)
    (h : t.Alike t') (hv : Vocabulary.builtin.strategies <+: v.strategies)
    (hkinds : ∀ hole ∈ p.holes, hole.1.kind = .any ∨ hole.1.kind = .identifier)
    (hnodup : (p.holes.map (·.1.name)).Nodup) (hi : i ≤ t.size) :
    (Matcher.ofPattern v p).matchAt? t' i = (Matcher.ofPattern v p).matchAt? t i := by
  have halign : align v t p.program i = align v t' p.program i :=
    align_congr hT hN hT' hN' hi (h.size_eq ▸ hi) (aligns_alike_iff h hv hkinds hnodup)
  unfold Matcher.matchAt? Matcher.mayStart Matcher.ofPattern
  rw [h.kind?_eq, halign]

/-- Of two targets that differ only in the runs of blanks between their tokens a
pattern matches the same tokens, if no name comes twice in it and its kinds are built
in.  One match after the other, the same tokens are bound to each name. -/
theorem findAll_relaid {source source' : String} {tokens tokens' : List Target.Token}
    (ht : Target.ofTokens? source tokens = .ok t)
    (ht' : Target.ofTokens? source' tokens' = .ok t') (hrelaid : t.Relaid t')
    (hv : Vocabulary.builtin.strategies <+: v.strategies)
    (hkinds : ∀ hole ∈ p.holes, hole.1.kind = .any ∨ hole.1.kind = .identifier)
    (hnodup : (p.holes.map (·.1.name)).Nodup) (overlapping : Bool) :
    (∀ k, (Matcher.ofPattern v p).alignments t' overlapping k =
      (Matcher.ofPattern v p).alignments t overlapping k) ∧
      List.Forall₂ (Match.SameTokens t t') ((Matcher.ofPattern v p).findAll t overlapping)
        ((Matcher.ofPattern v p).findAll t' overlapping) := by
  have hT : t.Tiled := Target.tiled_of_ofTokens? ht
  have hN : t.Nested := Target.nested_of_ofTokens? ht
  have hT' : t'.Tiled := Target.tiled_of_ofTokens? ht'
  have hN' : t'.Nested := Target.nested_of_ofTokens? ht'
  have halike : t.Alike t' := hrelaid.alike hT hN hT' hN'
  have hsame : ∀ k, (Matcher.ofPattern v p).alignments t' overlapping k =
      (Matcher.ofPattern v p).alignments t overlapping k := by
    intro k
    rw [Matcher.alignments_map (f := id) halike.size_eq (fun _ => rfl) ?_ overlapping k,
      List.map_id]
    intro i hi
    rw [matchAt?_alike hT hN hT' hN' halike hv hkinds hnodup (Nat.le_of_lt hi), Option.map_id]
    rfl
  refine ⟨hsame, ?_⟩
  unfold Matcher.findAll
  rw [hsame 0, List.forall₂_map_left_iff, List.forall₂_map_right_iff, List.forall₂_same]
  intro a ha
  obtain ⟨hlays, hinside, hlt, hsize⟩ := Matcher.lays_of_mem_alignments hT hN ha
  exact sameTokens_toMatch hN hlays hinside hlt hsize

/-- The blank in the pattern takes the end of the comment together with the line breaks
behind it. -/
theorem findAll_relaid_comment :
    ∃ t t' p,
      Target.ofTokens? "a \x7b//b \n\tc \x7d" (Target.scan "a \x7b//b \n\tc \x7d") = .ok t ∧
      Target.ofTokens? "a \x7b//b \n\n  c\n\x7d" (Target.scan "a \x7b//b \n\n  c\n\x7d") = .ok t' ∧
      Pattern.compile "\x7b//b :[x] \x7d" = .ok p ∧ t.Relaid t' ∧
      Vocabulary.builtin.strategies <+: Vocabulary.builtin.strategies ∧
      (∀ hole ∈ (p.constrain "x" .identifier).holes,
        hole.1.kind = .any ∨ hole.1.kind = .identifier) ∧
      ((p.constrain "x" .identifier).holes.map (·.1.name)).Nodup ∧
      (Matcher.ofPattern .builtin (p.constrain "x" .identifier)).findAll t false =
        [⟨⟨2, 12⟩, .ofList [("x", ⟨⟨9, 10⟩, "c"⟩)]⟩] ∧
      List.Forall₂ (Match.SameTokens t t')
        ((Matcher.ofPattern .builtin (p.constrain "x" .identifier)).findAll t false)
        ((Matcher.ofPattern .builtin (p.constrain "x" .identifier)).findAll t' false) := by
  have hlayouts : (do
        let t ← (Target.tokenize "a \x7b//b \n\tc \x7d").toOption
        let t' ← (Target.tokenize "a \x7b//b \n\n  c\n\x7d").toOption
        return decide (t.Relaid t')) = some true := by decide +kernel
  have hruns : (do
        let t ← (Target.tokenize "a \x7b//b \n\tc \x7d").toOption
        let p ← (Pattern.compile "\x7b//b :[x] \x7d").toOption
        let p' := p.constrain "x" .identifier
        return ((Matcher.ofPattern .builtin p').findAll t false,
          p'.holes.all fun hole => hole.1.kind == .any || hole.1.kind == .identifier,
          decide (p'.holes.map (·.1.name)).Nodup)) =
      some ([⟨⟨2, 12⟩, .ofList [("x", ⟨⟨9, 10⟩, "c"⟩)]⟩], true, true) := by decide +kernel
  obtain ⟨t, t', ht, ht', hlayouts⟩ := exists_ok_of_bind_toOption hlayouts
  obtain ⟨_, p, htarget, hp, hruns⟩ := exists_ok_of_bind_toOption hruns
  obtain rfl := Except.ok.inj (ht.symm.trans htarget)
  simp only [Prod.mk.injEq, List.all_eq_true, Bool.or_eq_true, beq_iff_eq,
    decide_eq_true_eq] at hruns
  obtain ⟨hmatches, hkinds, hnodup⟩ := hruns
  have hrelaid : t.Relaid t' := of_decide_eq_true hlayouts
  have hsame := (findAll_relaid ht ht' hrelaid (List.prefix_refl _) hkinds hnodup false).2
  exact ⟨t, t', p, ht, ht', hp, hrelaid, List.prefix_refl _, hkinds, hnodup, hmatches, hsame⟩

/-- The second hole tells the two layouts apart. -/
example : (do
    let p ← (Pattern.compile ":[a]:[a]").toOption
    let t ← (Target.tokenize "(x y)(x y)").toOption
    let t' ← (Target.tokenize "(x y)(x  y)").toOption
    return (decide (t.Relaid t'), (Matcher.ofPattern .builtin p).isMatch t,
      (Matcher.ofPattern .builtin p).isMatch t')) = some (true, true, false) := by
  decide +kernel

end

end Stencil
