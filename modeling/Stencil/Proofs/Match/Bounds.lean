import Stencil.Proofs.Match.Captures
import Stencil.Proofs.Match.Checked

/-!
# Bounds of the search

Whatever the search tries, it stays inside the target: each state stands in the brace
groups that the pattern has entered, one inside the next, and does not go beyond the
end of the innermost one.  So nothing that a state looks at is missing, and the checked
search has no faults.
-/

namespace Stencil

/-! ## Brace groups -/

/-- Token `i` stands in the brace groups with these openers, each of them inside the
next. -/
structure Target.Braces (t : Target) (openers : List Nat) (i : Nat) : Prop where
  opening : ∀ o ∈ openers, t.kind? o = some (.opening .brace)
  closing : ∀ o ∈ openers, t.kind? (t.partner o) = some (.closing .brace)
  around : ∀ o ∈ openers, o < i ∧ i ≤ t.partner o
  nested : openers.Pairwise fun inner outer =>
    outer < inner ∧ t.partner inner < t.partner outer

namespace Target.Braces

variable {t : Target} {openers : List Nat} {i j o : Nat}

theorem nil (t : Target) (i : Nat) : t.Braces [] i := ⟨by simp, by simp, by simp, .nil⟩

theorem inside_partner (h : t.Braces openers i) (ho : o ∈ openers) :
    t.Inside (t.partner o) i :=
  ⟨(h.around o ho).2, .inr ⟨o, .brace, h.opening o ho, (h.around o ho).1, rfl⟩⟩

theorem inside (h : t.Braces openers i) (hi : i ≤ t.size) :
    t.Inside ((openers.map t.partner).headD t.size) i := by
  cases openers with
  | nil => exact ⟨hi, .inl rfl⟩
  | cons o outer => exact h.inside_partner (List.mem_cons_self ..)

theorem limit_le (h : t.Braces openers i) (ho : o ∈ openers) :
    (openers.map t.partner).headD t.size ≤ t.partner o := by
  cases openers with
  | nil => simp at ho
  | cons inner outer =>
      rcases List.mem_cons.mp ho with rfl | ho
      · exact Nat.le_refl _
      · exact Nat.le_of_lt ((List.pairwise_cons.mp h.nested).1 o ho).2

theorem mono (h : t.Braces openers i) (hij : i ≤ j)
    (hj : j ≤ (openers.map t.partner).headD t.size) : t.Braces openers j := by
  refine ⟨h.opening, h.closing, ?_, h.nested⟩
  intro o ho
  exact ⟨Nat.lt_of_lt_of_le (h.around o ho).1 hij, Nat.le_trans hj (h.limit_le ho)⟩

theorem enter (hN : t.Nested) (h : t.Braces openers i)
    (hi : t.kind? i = some (.opening .brace)) : t.Braces (i :: openers) (i + 1) := by
  have hforward := hN.lt_partner hi
  have hbefore : ∀ o ∈ openers, o < i ∧ t.partner i < t.partner o :=
    fun o ho => ⟨(h.around o ho).1, (h.inside_partner ho).partner_lt hN hi⟩
  refine ⟨?_, ?_, ?_, List.pairwise_cons.mpr ⟨hbefore, h.nested⟩⟩
  · exact List.forall_mem_cons.mpr ⟨hi, h.opening⟩
  · exact List.forall_mem_cons.mpr ⟨hN.kind?_partner hi, h.closing⟩
  · refine List.forall_mem_cons.mpr ⟨⟨Nat.lt_succ_self i, hforward⟩, ?_⟩
    intro o ho
    have := hbefore o ho
    omega

theorem leave (h : t.Braces (o :: openers) i) (hi : t.partner o = i) :
    t.Braces openers (i + 1) := by
  obtain ⟨hinner, hnested⟩ := List.pairwise_cons.mp h.nested
  refine ⟨(List.forall_mem_cons.mp h.opening).2, (List.forall_mem_cons.mp h.closing).2, ?_,
    hnested⟩
  intro outer houter
  have hbefore := (h.around outer (List.mem_cons_of_mem _ houter)).1
  have := hinner outer houter
  omega

end Target.Braces

/-! ## States -/

/-- The state stands no further than its scope, the scope is no longer than the
innermost group entered, and that ends inside the target. -/
structure State.InBounds (t : Target) (s : State) : Prop where
  position_le : s.position ≤ t.scopeEnd s.position
  scopeEnd_le : t.scopeEnd s.position ≤ s.limit t
  limit_le : s.limit t ≤ t.size
  braces : ∃ openers, s.scopes = openers.map t.partner ∧ t.Braces openers s.position
  bindings_le : ∀ entry ∈ s.bindings, entry.2.first ≤ entry.2.last ∧ entry.2.last ≤ t.size

section

variable {v : Vocabulary} {t : Target} {s s' : State}

namespace State.InBounds

theorem position_le_limit (h : s.InBounds t) : s.position ≤ s.limit t :=
  Nat.le_trans h.position_le h.scopeEnd_le

theorem position_le_size (h : s.InBounds t) : s.position ≤ t.size :=
  Nat.le_trans h.position_le_limit h.limit_le

theorem inside (h : s.InBounds t) : t.Inside (s.limit t) s.position := by
  obtain ⟨openers, hscopes, hbraces⟩ := h.braces
  rw [limit, hscopes]
  exact hbraces.inside h.position_le_size

theorem of_braces (hN : t.Nested) {openers : List Nat} (hscopes : s.scopes = openers.map t.partner)
    (hbraces : t.Braces openers s.position) (hposition : s.position ≤ t.size)
    (hbindings : ∀ entry ∈ s.bindings,
      entry.2.first ≤ entry.2.last ∧ entry.2.last ≤ t.size) : s.InBounds t := by
  have hinside : t.Inside (s.limit t) s.position := by
    rw [limit, hscopes]
    exact hbraces.inside hposition
  exact ⟨hN.le_scopeEnd hposition, hinside.scopeEnd_le hN, hinside.limit_le_size hN,
    ⟨openers, hscopes, hbraces⟩, hbindings⟩

theorem start (hN : t.Nested) {i : Nat} (hi : i ≤ t.size) : (State.start i).InBounds t := by
  refine of_braces hN ?_ (.nil t i) hi (by simp [State.start])
  rfl

end State.InBounds

/-- The step: every instruction stays in bounds. -/
theorem inBounds_of_mem_successors (hT : t.Tiled) (hN : t.Nested) (hs : s.InBounds t)
    {instr : Instr} (hs' : s' ∈ successors v t instr s) : s'.InBounds t := by
  obtain ⟨openers, hscopes, hbraces⟩ := hs.braces
  have hmoves := moves_of_mem_successors hT hN hs.inside hs'
  have hstands : s.position ≤ s'.position ∧ s'.position ≤ t.size ∧
      ∃ openers', s'.scopes = openers'.map t.partner ∧ t.Braces openers' s'.position := by
    rcases hmoves with ⟨hsame, hforward, hlimit⟩ | ⟨hbrace, hnext, hentered⟩ | ⟨hleft, hnext⟩
    · refine ⟨hforward, Nat.le_trans hlimit hs.limit_le, openers, hsame.trans hscopes, ?_⟩
      rw [State.limit, hscopes] at hlimit
      exact hbraces.mono hforward hlimit
    · rw [hnext, hentered, hscopes]
      exact ⟨Nat.le_succ _, Target.kind?_lt hbrace, s.position :: openers, rfl,
        hbraces.enter hN hbrace⟩
    · cases openers with
      | nil => simp [hscopes] at hleft
      | cons o outer =>
          rw [hscopes, List.map_cons, List.cons.injEq] at hleft
          have hcloser := hbraces.closing o (List.mem_cons_self ..)
          rw [hleft.1] at hcloser
          rw [hnext]
          exact ⟨Nat.le_succ _, Target.kind?_lt hcloser, outer, hleft.2.symm,
            hbraces.leave hleft.1⟩
  obtain ⟨hforward, hsize, openers', hscopes', hbraces'⟩ := hstands
  refine .of_braces hN hscopes' hbraces' hsize ?_
  rcases bindings_of_mem_successors hs' with hsame | ⟨hole, stop, _, _, rfl⟩
  · rw [hsame]
    exact hs.bindings_le
  · exact List.forall_mem_cons.mpr ⟨⟨hforward, hsize⟩, hs.bindings_le⟩

/-- The run: so does every state that the search can come to. -/
theorem inBounds_of_mem_statesBelow (hT : t.Tiled) (hN : t.Nested) (hs : s.InBounds t)
    {program : List Instr} (hs' : s' ∈ statesBelow v t program s) : s'.InBounds t := by
  induction program generalizing s with
  | nil =>
      rw [statesBelow, List.mem_singleton] at hs'
      exact hs' ▸ hs
  | cons instr rest ih =>
      rw [statesBelow, List.mem_cons, List.mem_flatMap] at hs'
      rcases hs' with rfl | ⟨next, hnext, hs'⟩
      · exact hs
      · exact ih (inBounds_of_mem_successors hT hN hs hnext) hs'

theorem mem_statesBelow_of_mem_outcomes {program : List Instr}
    (hs' : s' ∈ outcomes v t program s) : s' ∈ statesBelow v t program s := by
  induction program generalizing s with
  | nil => exact hs'
  | cons instr rest ih =>
      obtain ⟨next, hnext, hs'⟩ := List.mem_flatMap.mp hs'
      exact List.mem_cons_of_mem _ (List.mem_flatMap.mpr ⟨next, hnext, ih hs'⟩)

/-! ## No faults -/

namespace Checked

theorem successors_eq_ok (hT : t.Tiled) (hN : t.Nested) (hpartners : t.partners.size = t.size)
    (hs : s.InBounds t) (instr : Instr) :
    successors v t instr s = .ok (Stencil.successors v t instr s) := by
  cases instr with
  | text segs =>
      simp only [successors, Stencil.successors, readAt_eq_ok hT segs hs.position_le_limit]
      cases t.readAt? segs s.position (s.limit t) <;> rfl
  | enter =>
      simp only [successors, Stencil.successors]
      by_cases hlt : s.position < s.limit t
      · obtain ⟨k, hk⟩ := exists_kind (Nat.lt_of_lt_of_le hlt hs.limit_le)
        rw [if_pos hlt, kind_eq_ok hk, ok_bind, hk]
        by_cases hbrace : k = .opening .brace
        · subst hbrace
          rw [if_pos rfl, if_pos ⟨hlt, rfl⟩, partner_eq_ok hN hpartners hk]
          rfl
        · rw [if_neg hbrace, if_neg (by simp [hbrace])]
          rfl
      · rw [if_neg hlt, if_neg (fun h => hlt h.1)]
        rfl
  | leave =>
      simp only [successors, Stencil.successors]
      split <;> rfl
  | hole h =>
      simp only [successors, Stencil.successors]
      cases hlookup : s.bindings.lookup h.name with
      | some bound =>
          obtain ⟨before, after, heq, _⟩ := List.lookup_eq_some_iff.mp hlookup
          have hbound := (hs.bindings_le (h.name, bound) (by simp [heq])).1
          simp only [slice_eq_ok hT hbound, ok_bind, readAt_eq_ok hT _ hs.position_le_limit]
          cases t.readAt? [.literal (t.text bound.first bound.last)] s.position
            (s.limit t) <;> rfl
      | none =>
          have hlimit : min (s.limit t) (t.scopeEnd s.position) = t.scopeEnd s.position :=
            Nat.min_eq_right hs.scopeEnd_le
          have hends : ∀ stop ∈ t.captureEnds h.quantifier (t.scopeEnd s.position) s.position,
              s.position ≤ stop := fun stop hstop => (Target.captureEnd_le hN hs.position_le_size
            ((Target.mem_captureEnds_iff hN hs.position_le_size).mp hstop)).1
          simp only [hlimit]
          rw [captureEnds_eq_ok hN hpartners h.quantifier (hN.scopeEnd_le_size _), ok_bind,
            acceptedEnds_eq_ok hT v h.kind hends, ok_bind, acceptedEnds_eq_filter,
            acceptedEnds_eq_filter, List.filter_reverse]
          rfl

theorem search_eq_ok (hT : t.Tiled) (hN : t.Nested) (hpartners : t.partners.size = t.size)
    (program : List Instr) (hs : s.InBounds t) :
    search v t program s = .ok (outcomes v t program s).head? := by
  induction program generalizing s with
  | nil => rfl
  | cons instr rest ih =>
      rw [search, successors_eq_ok hT hN hpartners hs, ok_bind, outcomes, List.head?_flatMap]
      exact findSomeM?_eq_ok fun next hnext => ih (inBounds_of_mem_successors hT hN hs hnext)

theorem finish_eq_ok (hT : t.Tiled) (hs : s.InBounds t) (i : Nat) :
    finish t i s = .ok ((⟨i, s.position, s.bindings⟩ : Alignment).toMatch t) := by
  have hcaptures : (s.bindings.mapM fun entry => return (entry.1, ← capture t entry.2)) =
      Except.ok (s.bindings.map fun entry => (entry.1, entry.2.capture t)) := by
    refine mapM_eq_ok fun entry hentry => ?_
    simp only [capture, slice_eq_ok hT (hs.bindings_le entry hentry).1]
    rfl
  rw [finish, hcaptures]
  rfl

end Checked

end

/-- The search never leaves the target.  Each state that it can come to is in bounds,
and neither an instruction there nor the search as a whole, with the match that comes
of it, looks at a token or a stretch of text that does not exist. -/
theorem search_in_bounds {source : String} {tokens : List Target.Token} {t : Target}
    (ht : Target.ofTokens? source tokens = .ok t) (v : Vocabulary) (p : Pattern) {i : Nat}
    (hi : i ≤ t.size) :
    (∀ s ∈ statesBelow v t p.program (.start i), s.InBounds t ∧
      ∀ instr, Checked.successors v t instr s = .ok (successors v t instr s)) ∧
      Checked.matchAt v t p.program i =
        .ok ((align v t p.program i).map (·.toMatch t)) := by
  have hT : t.Tiled := Target.tiled_of_ofTokens? ht
  have hN : t.Nested := Target.nested_of_ofTokens? ht
  have hpartners := Target.size_partners_of_ofTokens? ht
  have hbounds : ∀ s ∈ statesBelow v t p.program (.start i), s.InBounds t :=
    fun s hs => inBounds_of_mem_statesBelow hT hN (.start hN hi) hs
  constructor
  · intro s hs
    exact ⟨hbounds s hs, Checked.successors_eq_ok hT hN hpartners (hbounds s hs)⟩
  · rw [Checked.matchAt, Checked.search_eq_ok hT hN hpartners _ (.start hN hi), Checked.ok_bind,
      align_eq_head?]
    cases hfirst : (outcomes v t p.program (.start i)).head? with
    | none => rfl
    | some s =>
        have hs := hbounds s (mem_statesBelow_of_mem_outcomes (List.mem_of_head? hfirst))
        simp only [Checked.finish_eq_ok hT hs]
        rfl

/-- Here the kinds have nothing to do with the text: the first character counts as an
opening brace and the last one as the brace that closes it. -/
theorem search_in_bounds_kinds_of_caller :
    ∃ t p, Target.ofTokens? "éa b" [⟨.opening .brace, ⟨0, 2⟩⟩, ⟨.punct, ⟨2, 3⟩⟩, ⟨.word, ⟨3, 4⟩⟩,
        ⟨.closing .brace, ⟨4, 5⟩⟩] = .ok t ∧
      Pattern.compile "{:[x] :[[y]]}" = .ok p ∧
      align .builtin t p.program 0 =
        some ⟨0, 4, [("y", ⟨3, 3⟩), ("x", ⟨1, 2⟩)]⟩ ∧
      (∀ s ∈ statesBelow .builtin t p.program (.start 0), s.InBounds t ∧
        ∀ instr, Checked.successors .builtin t instr s = .ok (successors .builtin t instr s)) ∧
      Checked.matchAt .builtin t p.program 0 =
        .ok ((align .builtin t p.program 0).map (·.toMatch t)) := by
  have halign : (do
        let t ← (Target.ofTokens? "éa b" [⟨.opening .brace, ⟨0, 2⟩⟩, ⟨.punct, ⟨2, 3⟩⟩,
          ⟨.word, ⟨3, 4⟩⟩, ⟨.closing .brace, ⟨4, 5⟩⟩]).toOption
        let p ← (Pattern.compile "{:[x] :[[y]]}").toOption
        return align .builtin t p.program 0) =
      some (some ⟨0, 4, [("y", ⟨3, 3⟩), ("x", ⟨1, 2⟩)]⟩) := by decide +kernel
  obtain ⟨t, p, ht, hp, halign⟩ := exists_ok_of_bind_toOption halign
  obtain ⟨hstates, hmatch⟩ := search_in_bounds ht .builtin p (Nat.zero_le t.size)
  exact ⟨t, p, ht, hp, halign, hstates, hmatch⟩

end Stencil
