import Stencil.Proofs.Match.Bindings
import Stencil.Proofs.Match.Scan
import Stencil.Proofs.Target.Fragment

/-!
# Captures

A capture, taken out of the source, is a target of its own.  On the way to a
match every hole takes tokens inside the match: the first hole of a name those
that are bound to it, and any other the same kinds and texts once more.
-/

namespace Stencil

/-! ## Nested groups -/

/-- Token `i` stands in the first of the groups that end at these closers, and
behind each closer goes on the group around it. -/
def Target.Encloses (t : Target) : List Nat → Nat → Prop
  | [], i => i ≤ t.size
  | c :: outer, i => t.Inside c i ∧ t.Encloses outer (c + 1)

namespace Target.Encloses

variable {t : Target} {scopes : List Nat} {i j : Nat}

theorem inside (h : t.Encloses scopes i) : t.Inside (scopes.headD t.size) i := by
  cases scopes with
  | nil => exact ⟨h, .inl rfl⟩
  | cons c outer => exact h.1

theorem mono (h : t.Encloses scopes i) (hij : i ≤ j) (hj : j ≤ scopes.headD t.size) :
    t.Encloses scopes j := by
  cases scopes with
  | nil => exact hj
  | cons c outer => exact ⟨h.1.mono hij hj, h.2⟩

theorem enter {d : Delimiter} (hN : t.Nested) (h : t.Encloses scopes i)
    (hi : t.kind? i = some (.opening d)) : t.Encloses (t.partner i :: scopes) (i + 1) := by
  have hforward := hN.lt_partner hi
  exact ⟨.opening_succ hN hi, h.mono (by omega) (h.inside.partner_lt hN hi)⟩

end Target.Encloses

/-! ## States on the way -/

section

variable {v : Vocabulary} {t : Target} {s s' : State}

theorem take_of_mem_successors (hT : t.Tiled) (hN : t.Nested)
    (hinside : t.Inside (s.limit t) s.position) {h : Hole}
    (hs' : s' ∈ successors v t (.hole h) s) :
    s'.scopes = s.scopes ∧ s.position ≤ s'.position ∧ s'.position ≤ s.limit t ∧
      ∃ range, s'.bindings.lookup h.name = some range ∧
        t.text s.position s'.position = t.text range.first range.last ∧
        (s.bindings.lookup h.name = none → range = ⟨s.position, s'.position⟩) := by
  have hsize := hinside.limit_le_size hN
  cases hlookup : s.bindings.lookup h.name with
  | some range =>
      obtain ⟨stop, hread, rfl⟩ := (mem_successors_bound_iff hlookup).mp hs'
      obtain ⟨hforward, hlimit, htext⟩ :=
        (Target.readAt?_literal_iff hT hinside.1 hsize).mp hread
      exact ⟨rfl, hforward, hlimit, range, hlookup, htext, by simp⟩
  | none =>
      obtain ⟨stop, hstop, _, rfl⟩ := (mem_successors_free_iff hlookup).mp hs'
      have hscope := hinside.scopeEnd_le hN
      have hposition := Nat.le_trans hinside.1 hsize
      rw [Nat.min_eq_right hscope, Target.mem_captureEnds_iff hN hposition] at hstop
      obtain ⟨hforward, hend⟩ := Target.captureEnd_le hN hposition hstop
      refine ⟨rfl, hforward, Nat.le_trans hend hscope, ⟨s.position, stop⟩, ?_, rfl, fun _ => rfl⟩
      rw [State.bind, lookup_cons_eq_ite, if_pos rfl]

/-- An instruction moves ahead within the group it stands in, enters the group that
opens there, or leaves the one that closes there. -/
theorem moves_of_mem_successors (hT : t.Tiled) (hN : t.Nested)
    (hinside : t.Inside (s.limit t) s.position) {instr : Instr}
    (hs' : s' ∈ successors v t instr s) :
    (s'.scopes = s.scopes ∧ s.position ≤ s'.position ∧ s'.position ≤ s.limit t) ∨
      (t.kind? s.position = some (.opening .brace) ∧ s'.position = s.position + 1 ∧
        s'.scopes = t.partner s.position :: s.scopes) ∨
      (s.scopes = s.position :: s'.scopes ∧ s'.position = s.position + 1) := by
  cases instr with
  | text segs =>
      obtain ⟨stop, hread, rfl⟩ := mem_successors_text_iff.mp hs'
      obtain ⟨hforward, hlimit, _⟩ := (Target.readAt?_eq_some_iff_segments hT hinside.1
        (hinside.limit_le_size hN)).mp hread
      exact .inl ⟨rfl, hforward, hlimit⟩
  | enter =>
      obtain ⟨⟨_, hbrace⟩, rfl⟩ := mem_successors_enter_iff.mp hs'
      exact .inr (.inl ⟨hbrace, rfl, rfl⟩)
  | leave =>
      obtain ⟨hclosed, rfl⟩ := mem_successors_leave_iff.mp hs'
      obtain ⟨outer, hscopes⟩ := List.head?_eq_some_iff.mp hclosed
      exact .inr (.inr ⟨by rw [hscopes, List.tail_cons], rfl⟩)
  | hole h =>
      obtain ⟨hscopes, hforward, hlimit, _⟩ := take_of_mem_successors hT hN hinside hs'
      exact .inl ⟨hscopes, hforward, hlimit⟩

theorem encloses_of_mem_successors (hT : t.Tiled) (hN : t.Nested)
    (hs : t.Encloses s.scopes s.position) {instr : Instr} (hs' : s' ∈ successors v t instr s) :
    s.position ≤ s'.position ∧ t.Encloses s'.scopes s'.position := by
  rcases moves_of_mem_successors hT hN hs.inside hs' with
    ⟨hscopes, hforward, hlimit⟩ | ⟨hbrace, hnext, hscopes⟩ | ⟨hscopes, hnext⟩
  · rw [hscopes]
    exact ⟨hforward, hs.mono hforward hlimit⟩
  · rw [hnext, hscopes]
    exact ⟨Nat.le_succ _, hs.enter hN hbrace⟩
  · rw [hscopes] at hs
    rw [hnext]
    exact ⟨Nat.le_succ _, hs.2⟩

theorem encloses_of_mem_outcomes (hT : t.Tiled) (hN : t.Nested)
    (hs : t.Encloses s.scopes s.position) {program : List Instr}
    (hs' : s' ∈ outcomes v t program s) :
    s.position ≤ s'.position ∧ t.Encloses s'.scopes s'.position := by
  induction program generalizing s with
  | nil =>
      rw [outcomes, List.mem_singleton] at hs'
      rw [hs']
      exact ⟨Nat.le_refl _, hs⟩
  | cons instr rest ih =>
      rw [outcomes, List.mem_flatMap] at hs'
      obtain ⟨next, hnext, hs'⟩ := hs'
      obtain ⟨hforward, henclosed⟩ := encloses_of_mem_successors hT hN hs hnext
      obtain ⟨hlater, hlast⟩ := ih henclosed hs'
      exact ⟨Nat.le_trans hforward hlater, hlast⟩

/-! ## Names on the way -/

theorem lookup_of_mem_successors {name : String} {instr : Instr}
    (hs' : s' ∈ successors v t instr s) (hname : ∀ h, instr = .hole h → h.name ≠ name) :
    s'.bindings.lookup name = s.bindings.lookup name := by
  rcases bindings_of_mem_successors hs' with hsame | ⟨h, stop, hinstr, _, rfl⟩
  · rw [hsame]
  · rw [State.bind, lookup_cons_eq_ite, if_neg (Ne.symm (hname h hinstr))]

theorem lookup_of_mem_outcomes {name : String} {program : List Instr}
    (hs' : s' ∈ outcomes v t program s) (hname : ∀ h, .hole h ∈ program → h.name ≠ name) :
    s'.bindings.lookup name = s.bindings.lookup name := by
  induction program generalizing s with
  | nil =>
      rw [outcomes, List.mem_singleton] at hs'
      rw [hs']
  | cons instr rest ih =>
      rw [outcomes, List.mem_flatMap] at hs'
      obtain ⟨next, hnext, hs'⟩ := hs'
      rw [ih hs' fun h hh => hname h (List.mem_cons_of_mem _ hh),
        lookup_of_mem_successors hnext fun h hh => hname h (by simp [hh])]

end

/-! ## Captures of a match -/

/-- On the way to the alignment the instruction between `before` and `after` takes
the tokens `r`. -/
def Alignment.Takes (v : Vocabulary) (t : Target) (a : Alignment) (before : List Instr)
    (instr : Instr) (after : List Instr) (r : TokenRange) : Prop :=
  ∃ s ∈ outcomes v t before (.start a.first), ∃ s' ∈ successors v t instr s,
    (⟨a.last, [], a.bindings⟩ : State) ∈ outcomes v t after s' ∧ r = ⟨s.position, s'.position⟩

section

variable {v : Vocabulary} {source : String} {t : Target} {p : Pattern} {a : Alignment}
  {i k : Nat} {before after : List Instr} {h : Hole} {r : TokenRange}

theorem Alignment.exists_takes (hT : t.Tiled) (hN : t.Nested) (hi : i ≤ t.size)
    (ha : Aligns v t p i a) (hprogram : p.program = before ++ .hole h :: after) :
    ∃ r, a.Takes v t before (.hole h) after r := by
  have hlast : (⟨a.last, [], a.bindings⟩ : State) ∈ outcomes v t p.program (.start a.first) := by
    rw [ha.1, mem_outcomes_start_iff hT hN hi]
    exact ⟨rfl, rfl, ha.2⟩
  rw [hprogram, outcomes_append, List.mem_flatMap] at hlast
  obtain ⟨s, hs, hlast⟩ := hlast
  rw [outcomes, List.mem_flatMap] at hlast
  obtain ⟨s', hs', hlast⟩ := hlast
  exact ⟨_, s, hs, s', hs', hlast, rfl⟩

theorem Alignment.Takes.between_eq (ht : Target.tokenize source = .ok t) (hi : a.first ≤ t.size)
    (hnodup : (a.bindings.map (·.1)).Nodup) (hr : a.Takes v t before (.hole h) after r) :
    (a.first ≤ r.first ∧ r.first ≤ r.last ∧ r.last ≤ a.last) ∧
      ∃ bound, a.bindings.lookup h.name = some bound ∧
        t.between r.first r.last = t.between bound.first bound.last ∧
        ((∀ h', .hole h' ∈ before → h'.name ≠ h.name) → r = bound) := by
  have hT : t.Tiled := Target.tiled_of_ofTokens? ht
  have hN : t.Nested := Target.nested_of_ofTokens? ht
  obtain ⟨s, hs, s', hs', hlast, rfl⟩ := hr
  obtain ⟨hfirst, henclosed⟩ := encloses_of_mem_outcomes hT hN
    (s := .start a.first) (show t.Encloses [] a.first from hi) hs
  obtain ⟨hforward, henclosed'⟩ := encloses_of_mem_successors hT hN henclosed hs'
  obtain ⟨_, _, _, bound, hlookup, htext, hfree⟩ :=
    take_of_mem_successors hT hN henclosed.inside hs'
  refine ⟨⟨hfirst, hforward, (encloses_of_mem_outcomes hT hN henclosed' hlast).1⟩, bound,
    lookup_of_suffix (bindings_suffix_of_mem_outcomes hlast) hnodup hlookup,
    Target.between_congr ht htext, fun hnew => ?_⟩
  refine (hfree ?_).symm
  rw [lookup_of_mem_outcomes hs hnew]
  rfl

/-- Every capture of a match is a target with the tokens that stand in its span,
and every hole takes tokens of the same kinds and texts as the first one of its
name, which are the ones captured. -/
theorem captures_stand_alone (ht : Target.tokenize source = .ok t) (v : Vocabulary) (p : Pattern)
    (overlapping : Bool) (ha : a ∈ (Matcher.ofPattern v p).alignments t overlapping k) :
    (∀ name c, (a.toMatch t).captures.find? name = some c →
      ∃ t', Target.tokenize c.text = .ok t' ∧
        t'.tokens = (t.tokens.filter (·.within c.span)).map (.shiftBack c.span.start)) ∧
    ∀ before h after, p.program = before ++ .hole h :: after →
      (∃ r, a.Takes v t before (.hole h) after r) ∧
      ∀ r, a.Takes v t before (.hole h) after r →
        (a.first ≤ r.first ∧ r.first ≤ r.last ∧ r.last ≤ a.last) ∧
        ∃ bound, (a.toMatch t).captures.find? h.name = some (bound.capture t) ∧
          t.between r.first r.last = t.between bound.first bound.last ∧
          ((∀ h', .hole h' ∈ before → h'.name ≠ h.name) → r = bound) := by
  have hT : t.Tiled := Target.tiled_of_ofTokens? ht
  have hN : t.Nested := Target.nested_of_ofTokens? ht
  obtain ⟨hlays, hinside, _, hsize⟩ := Matcher.lays_of_mem_alignments hT hN ha
  have hnodup : (a.bindings.map (·.1)).Nodup := hlays.nodup (by simp)
  constructor
  · intro name c hc
    rw [Alignment.find?_captures hnodup, Option.map_eq_some_iff] at hc
    obtain ⟨range, hrange, rfl⟩ := hc
    obtain ⟨before, after, hbindings, _⟩ := List.lookup_eq_some_iff.mp hrange
    have hmem : (name, range) ∈ a.bindings := by simp [hbindings]
    rcases hlays.captureEnd_of_mem hN hinside hmem with hnil | ⟨_, hforward, hlast, _, hend⟩
    · simp at hnil
    · exact Target.tokenize_text ht hforward (Nat.le_trans hlast hsize)
        (Target.balanced_of_atoms hN (Target.atoms_of_captureEnd hend))
  · intro before h after hprogram
    refine ⟨a.exists_takes hT hN hinside.1 ⟨rfl, hlays⟩ hprogram, fun r hr => ?_⟩
    obtain ⟨hbounds, bound, hbound, hbetween, hfirst⟩ := hr.between_eq ht hinside.1 hnodup
    refine ⟨hbounds, bound, ?_, hbetween, hfirst⟩
    rw [Alignment.find?_captures hnodup, hbound]
    rfl

/-- Cut off behind the label and the division, the capture reads as it does in the
source; its second occurrence is the same four tokens. -/
theorem captures_stand_alone_label :
    ∃ t p a, Target.tokenize "f('a /b) = g('a /b);" = .ok t ∧
      Pattern.compile ":[f](:[[x]]) = :[g](:[[x]])" = .ok p ∧
      a ∈ (Matcher.ofPattern .builtin p).alignments t false 0 ∧
      (a.toMatch t).captures.find? "x" = some ⟨⟨2, 7⟩, "'a /b"⟩ ∧
      (∃ t', Target.tokenize "'a /b" = .ok t' ∧
        t'.tokens = (t.tokens.filter (·.within ⟨2, 7⟩)).map (.shiftBack 2)) ∧
      ∃ (before : List Instr) (h : Hole) (after : List Instr) (r bound : TokenRange),
        .hole h ∈ before ∧ p.program = before ++ .hole h :: after ∧
        a.Takes .builtin t before (.hole h) after r ∧
        (a.toMatch t).captures.find? h.name = some (bound.capture t) ∧
        t.between r.first r.last = t.between bound.first bound.last := by
  have hruns : (do
        let t ← (Target.tokenize "f('a /b) = g('a /b);").toOption
        let p ← (Pattern.compile ":[f](:[[x]]) = :[g](:[[x]])").toOption
        return (p.program[2]? == some (.hole ⟨"x", .any, .block⟩) &&
          p.program == p.program.take 6 ++ .hole ⟨"x", .any, .block⟩ :: p.program.drop 7 &&
          ((Matcher.ofPattern .builtin p).alignments t false 0).map
            (fun a => (a.toMatch t).captures.find? "x") == [some ⟨⟨2, 7⟩, "'a /b"⟩])) =
      some true := by decide +kernel
  obtain ⟨t, p, ht, hp, hruns⟩ := exists_ok_of_bind_toOption hruns
  simp only [Bool.and_eq_true, beq_iff_eq] at hruns
  obtain ⟨⟨hfirst, hprogram⟩, hfound⟩ := hruns
  obtain ⟨a, later, halignments, hcapture, _⟩ := List.map_eq_cons_iff.mp hfound
  have ha : a ∈ (Matcher.ofPattern .builtin p).alignments t false 0 := by simp [halignments]
  obtain ⟨hcaptures, hholes⟩ := captures_stand_alone ht .builtin p false ha
  obtain ⟨⟨r, hr⟩, htaken⟩ := hholes _ _ _ hprogram
  obtain ⟨_, bound, hbound, hbetween, _⟩ := htaken r hr
  have hbefore : Instr.hole ⟨"x", .any, .block⟩ ∈ p.program.take 6 :=
    List.mem_of_getElem? (i := 2) (by rw [List.getElem?_take, if_pos (by decide), hfirst])
  exact ⟨t, p, a, ht, hp, ha, hcapture, hcaptures _ _ hcapture, _, _, _, r, bound, hbefore,
    hprogram, hr, hbound, hbetween⟩

end

end Stencil
