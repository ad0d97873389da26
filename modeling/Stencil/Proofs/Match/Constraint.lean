import Stencil.Proofs.Match.Captures
import Stencil.Proofs.Match.Selection
import Stencil.Proofs.Pattern.Holes

/-!
# Constraints

A kind put on the holes of a name filters the search.  The states that the pattern
leads to stay in their order, and those fall out in which the name is bound to a text
that the kind refuses.  What is found first afterwards is therefore the first of what
is left.
-/

namespace Stencil

def Hole.constrain (name : String) (kind : CaptureKind) (h : Hole) : Hole :=
  if h.name = name then { h with kind } else h

def State.obeys (v : Vocabulary) (t : Target) (name : String) (kind : CaptureKind)
    (s : State) : Bool :=
  (s.bindings.lookup name).all fun r => v.accepts kind (t.text r.first r.last)

/-- If the pattern has a hole of the name, a text of the kind is bound to it. -/
def Alignment.Obeys (v : Vocabulary) (t : Target) (p : Pattern) (name : String)
    (kind : CaptureKind) (a : Alignment) : Prop :=
  name ∈ p.holeNames →
    ∃ r, a.bindings.lookup name = some r ∧ v.accepts kind (t.text r.first r.last) = true

section

variable {v : Vocabulary} {t : Target} {s s' : State} {instr : Instr} {program : List Instr}
  {name : String} {kind : CaptureKind}

/-! ## Bound names -/

theorem lookup_eq_some_of_mem_successors {r : TokenRange}
    (hs' : s' ∈ successors v t instr s) (hr : s.bindings.lookup name = some r) :
    s'.bindings.lookup name = some r := by
  rcases bindings_of_mem_successors hs' with hsame | ⟨h, stop, _, hfree, rfl⟩
  · rw [hsame, hr]
  · have hne : name ≠ h.name := by
      rintro rfl
      simp [hfree] at hr
    rw [State.bind, lookup_cons_eq_ite, if_neg hne, hr]

theorem lookup_eq_some_of_mem_outcomes {r : TokenRange} (hs' : s' ∈ outcomes v t program s)
    (hr : s.bindings.lookup name = some r) : s'.bindings.lookup name = some r := by
  induction program generalizing s with
  | nil =>
      rw [outcomes, List.mem_singleton] at hs'
      rw [hs', hr]
  | cons instr rest ih =>
      rw [outcomes, List.mem_flatMap] at hs'
      obtain ⟨next, hnext, hs'⟩ := hs'
      exact ih hs' (lookup_eq_some_of_mem_successors hnext hr)

theorem obeys_of_mem_outcomes (hs' : s' ∈ outcomes v t program s)
    (h : s'.obeys v t name kind = true) : s.obeys v t name kind = true := by
  unfold State.obeys at h ⊢
  cases hr : s.bindings.lookup name with
  | none => rfl
  | some r => rwa [lookup_eq_some_of_mem_outcomes hs' hr] at h

/-! ## The filtered search -/

theorem filter_obeys_of_lookup (hs : s.obeys v t name kind = true)
    (hlookup : ∀ s' ∈ successors v t instr s,
      s'.bindings.lookup name = s.bindings.lookup name) :
    (successors v t instr s).filter (State.obeys v t name kind) = successors v t instr s := by
  apply List.filter_eq_self.mpr
  intro s' hs'
  unfold State.obeys at hs ⊢
  rwa [hlookup s' hs']

/-- The step: only the hole that binds the name tells the two searches apart, and
there the ends left are those that the kind accepts. -/
theorem successors_constrain (hs : s.obeys v t name kind = true)
    (hany : ∀ h, instr = .hole h → h.name = name → h.kind = .any) :
    successors v t (instr.mapHole (Hole.constrain name kind)) s =
      (successors v t instr s).filter (State.obeys v t name kind) := by
  by_cases hname : ∀ h, instr = .hole h → h.name ≠ name
  · have hsame : instr.mapHole (Hole.constrain name kind) = instr := by
      cases instr with
      | hole h => simp [Instr.mapHole, Hole.constrain, hname h rfl]
      | text | enter | leave => rfl
    rw [hsame, filter_obeys_of_lookup hs fun s' hs' => lookup_of_mem_successors hs' hname]
  · push Not at hname
    obtain ⟨h, rfl, rfl⟩ := hname
    have hkind : h.kind = .any := hany h rfl rfl
    have hconstrained : (Instr.hole h).mapHole (Hole.constrain h.name kind) =
        .hole { h with kind } := by
      simp [Instr.mapHole, Hole.constrain]
    rw [hconstrained]
    cases hlookup : s.bindings.lookup h.name with
    | some r =>
        rw [filter_obeys_of_lookup hs]
        · simp only [successors, hlookup]
        · intro s' hs'
          rw [lookup_eq_some_of_mem_successors hs' hlookup, hlookup]
    | none =>
        simp only [successors, hlookup, hkind]
        rw [acceptedEnds_eq_filter, Target.acceptedEnds, if_pos rfl, List.filter_map]
        congr 2
        funext stop
        simp [State.obeys, State.bind]

theorem flatMap_filter_of_branches {α β : Type} {keep : α → Bool} {keep' : β → Bool}
    {f g : α → List β} (hkept : ∀ x, keep x = true → g x = (f x).filter keep')
    (hdropped : ∀ x, ¬ keep x = true → (f x).filter keep' = []) (xs : List α) :
    (xs.filter keep).flatMap g = xs.flatMap fun x => (f x).filter keep' := by
  induction xs with
  | nil => rfl
  | cons x xs ih =>
      rw [List.flatMap_cons, ← ih]
      by_cases hx : keep x = true
      · rw [List.filter_cons_of_pos hx, List.flatMap_cons, hkept x hx]
      · rw [List.filter_cons_of_neg hx, hdropped x hx, List.nil_append]

/-- The run: the states that the constrained program leads to are those that obey. -/
theorem outcomes_constrain (hs : s.obeys v t name kind = true)
    (hany : ∀ h, .hole h ∈ program → h.name = name → h.kind = .any) :
    outcomes v t (program.map (Instr.mapHole (Hole.constrain name kind))) s =
      (outcomes v t program s).filter (State.obeys v t name kind) := by
  induction program generalizing s with
  | nil => simp [outcomes, hs]
  | cons instr rest ih =>
      have hstep : successors v t (instr.mapHole (Hole.constrain name kind)) s =
          (successors v t instr s).filter (State.obeys v t name kind) :=
        successors_constrain hs fun h hinstr => hany h (by simp [hinstr])
      have hkept : ∀ next : State, next.obeys v t name kind = true →
          outcomes v t (rest.map (Instr.mapHole (Hole.constrain name kind))) next =
            (outcomes v t rest next).filter (State.obeys v t name kind) :=
        fun next hnext => ih hnext fun h hmem => hany h (List.mem_cons_of_mem _ hmem)
      have hdropped : ∀ next : State, ¬ next.obeys v t name kind = true →
          (outcomes v t rest next).filter (State.obeys v t name kind) = [] := by
        intro next hnext
        rw [List.filter_eq_nil_iff]
        exact fun last hlast hobeys => hnext (obeys_of_mem_outcomes hlast hobeys)
      rw [List.map_cons, outcomes, outcomes, hstep, List.filter_flatMap]
      exact flatMap_filter_of_branches hkept hdropped _

/-! ## Alignments of a constrained pattern -/

variable {p : Pattern} {i : Nat} {a : Alignment}

theorem outcomes_constrain_start (hany : ∀ h ∈ p.holes, h.1.name = name → h.1.kind = .any) :
    outcomes v t (p.constrain name kind).program (.start i) =
      (outcomes v t p.program (.start i)).filter (State.obeys v t name kind) := by
  have hprogram : (p.constrain name kind).program =
      p.program.map (Instr.mapHole (Hole.constrain name kind)) := p.program_mapHoles _
  rw [hprogram]
  apply outcomes_constrain
  · rfl
  · intro h hmem
    obtain ⟨hole, hhole, rfl⟩ := List.mem_map.mp (Pattern.mem_holes_of_mem_program hmem)
    exact hany hole hhole

theorem Aligns.obeys_iff (ha : Aligns v t p i a) :
    State.obeys v t name kind ⟨a.last, [], a.bindings⟩ = true ↔ a.Obeys v t p name kind := by
  unfold State.obeys Alignment.Obeys
  by_cases hname : name ∈ p.holeNames
  · obtain ⟨r, hr⟩ := ha.2.exists_lookup hname
    simp [hname, hr]
  · have hnone : a.bindings.lookup name = none := by
      cases hlookup : a.bindings.lookup name with
      | none => rfl
      | some r =>
          exact absurd (ha.2.mem_names_iff.mp (mem_names_of_lookup hlookup)) hname
    simp [hname, hnone]

theorem aligns_constrain_iff (hT : t.Tiled) (hN : t.Nested) (hi : i ≤ t.size)
    (hany : ∀ h ∈ p.holes, h.1.name = name → h.1.kind = .any) :
    Aligns v t (p.constrain name kind) i a ↔ Aligns v t p i a ∧ a.Obeys v t p name kind := by
  by_cases hfirst : a.first = i
  · subst hfirst
    have hmem : ∀ q : Pattern,
        (⟨a.last, [], a.bindings⟩ : State) ∈ outcomes v t q.program (.start a.first) ↔
          Aligns v t q a.first a := by
      intro q
      rw [mem_outcomes_start_iff hT hN hi]
      exact and_iff_right rfl
    rw [← hmem, outcomes_constrain_start hany, List.mem_filter, hmem]
    exact and_congr_right fun ha => ha.obeys_iff
  · constructor
    · exact fun ha => absurd ha.1 hfirst
    · exact fun ha => absurd ha.1.1 hfirst

end

/-- Of the alignments of a pattern, a kind for the holes of a name, which accepted any
text, leaves those in which a text of the kind is bound to the name.  The search finds
the first of them, which is the one it found before if that one is left. -/
theorem constrain_selects {source : String} {tokens : List Target.Token} {t : Target}
    (ht : Target.ofTokens? source tokens = .ok t) (v : Vocabulary) {p : Pattern} {name : String}
    (hany : ∀ h ∈ p.holes, h.1.name = name → h.1.kind = .any) (kind : CaptureKind) :
    (∀ i, i ≤ t.size →
      (∀ b, Aligns v t (p.constrain name kind) i b ↔
        Aligns v t p i b ∧ b.Obeys v t p name kind) ∧
      ((align v t (p.constrain name kind).program i).isSome →
        (align v t p.program i).isSome) ∧
      (∀ a, align v t p.program i = some a → a.Obeys v t p name kind →
        align v t (p.constrain name kind).program i = some a) ∧
      ∀ a, align v t (p.constrain name kind).program i = some a ↔
        (Aligns v t p i a ∧ a.Obeys v t p name kind) ∧
          ∀ b, Aligns v t p i b → b.Obeys v t p name kind →
            b = a ∨ Precedes a.ends b.ends) ∧
      ((Matcher.ofPattern v (p.constrain name kind)).isMatch t = true →
        (Matcher.ofPattern v p).isMatch t = true) := by
  have hT : t.Tiled := Target.tiled_of_ofTokens? ht
  have hN : t.Nested := Target.nested_of_ofTokens? ht
  have hleft : ∀ {i a}, i ≤ t.size → (Aligns v t (p.constrain name kind) i a ↔
      Aligns v t p i a ∧ a.Obeys v t p name kind) :=
    fun hi => aligns_constrain_iff hT hN hi hany
  constructor
  · intro i hi
    refine ⟨fun b => hleft hi, ?_, fun a ha hobeys => ?_, fun a => ⟨fun ha => ?_, ?_⟩⟩
    · intro hfound
      obtain ⟨a, ha⟩ := Option.isSome_iff_exists.mp hfound
      have haligns := ((hleft hi).mp (aligns_of_align hT hN hi ha)).1
      exact Option.isSome_iff_exists.mpr (exists_align_of_aligns hT hN hi haligns)
    · have haligns := (hleft hi).mpr ⟨aligns_of_align hT hN hi ha, hobeys⟩
      exact align_eq_some_of_first hT hN hi haligns
        fun b hb => first_of_align hT hN hi ha ((hleft hi).mp hb).1
    · exact ⟨(hleft hi).mp (aligns_of_align hT hN hi ha),
        fun b hb hobeys => first_of_align hT hN hi ha ((hleft hi).mpr ⟨hb, hobeys⟩)⟩
    · rintro ⟨haligns, hfirst⟩
      apply align_eq_some_of_first hT hN hi ((hleft hi).mpr haligns)
      intro b hb
      exact hfirst b ((hleft hi).mp hb).1 ((hleft hi).mp hb).2
  · unfold Matcher.isMatch
    rw [List.any_eq_true, List.any_eq_true]
    rintro ⟨i, hi, hmatch⟩
    have hsize : i ≤ t.size := Nat.le_of_lt (List.mem_range.mp hi)
    rw [Matcher.isSome_matchAt?_iff hT hN hsize, Pattern.constrain,
      Matcher.beginsBlank_mapHoles] at hmatch
    obtain ⟨hstart, a, ha, hlt⟩ := hmatch
    exact ⟨i, hi, (Matcher.isSome_matchAt?_iff hT hN hsize).mpr
      ⟨hstart, a, ((hleft hsize).mp ha).1, hlt⟩⟩

/-- The first block gives way until an identifier is left in it. -/
theorem constrain_selects_shorter_block :
    ∃ t p, Target.ofTokens? "(ab+cd)" (Target.scan "(ab+cd)") = .ok t ∧
      Pattern.compile "(:[[a]]:[[b]])" = .ok p ∧
      (∀ h ∈ p.holes, h.1.name = "a" → h.1.kind = .any) ∧ 0 ≤ t.size ∧
      align .builtin t p.program 0 = some ⟨0, 5, [("b", ⟨4, 4⟩), ("a", ⟨1, 4⟩)]⟩ ∧
      Aligns .builtin t p 0 ⟨0, 5, [("b", ⟨2, 4⟩), ("a", ⟨1, 2⟩)]⟩ ∧
      (∀ b, Aligns .builtin t p 0 b → b.Obeys .builtin t p "a" .identifier →
        b = ⟨0, 5, [("b", ⟨2, 4⟩), ("a", ⟨1, 2⟩)]⟩ ∨ Precedes [2, 4] b.ends) ∧
      (Matcher.ofPattern .builtin p).isMatch t = true := by
  have hruns : (do
        let t ← (Target.tokenize "(ab+cd)").toOption
        let p ← (Pattern.compile "(:[[a]]:[[b]])").toOption
        return (align .builtin t p.program 0,
          align .builtin t (p.constrain "a" .identifier).program 0,
          (Matcher.ofPattern .builtin (p.constrain "a" .identifier)).isMatch t,
          p.holes.all fun h => h.1.kind == .any)) =
      some (some ⟨0, 5, [("b", ⟨4, 4⟩), ("a", ⟨1, 4⟩)]⟩,
        some ⟨0, 5, [("b", ⟨2, 4⟩), ("a", ⟨1, 2⟩)]⟩, true, true) := by decide +kernel
  obtain ⟨t, p, ht, hp, hruns⟩ := exists_ok_of_bind_toOption hruns
  simp only [Prod.mk.injEq, List.all_eq_true, beq_iff_eq] at hruns
  obtain ⟨hfree, hbound, hmatch, hkinds⟩ := hruns
  have hany : ∀ h ∈ p.holes, h.1.name = "a" → h.1.kind = .any := fun h hh _ => hkinds h hh
  obtain ⟨hstarts, hisMatch⟩ := constrain_selects ht .builtin hany .identifier
  obtain ⟨⟨haligns, _⟩, hfirst⟩ := ((hstarts 0 (Nat.zero_le _)).2.2.2 _).mp hbound
  exact ⟨t, p, ht, hp, hany, Nat.zero_le _, hfree, haligns, hfirst, hisMatch hmatch⟩

end Stencil
