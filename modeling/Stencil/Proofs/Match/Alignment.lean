import Stencil.Pattern.Compile
import Stencil.Proofs.Match.Reading
import Stencil.Proofs.Match.Search
import Stencil.Proofs.Success

/-!
# Alignments of a pattern

What it means to lay a pattern along a target, item by item and with any choice
of ends for the holes.  The search finds an alignment exactly if there is one,
and of several the one whose ends, taken in the order of the holes, are the
latest at the first difference.
-/

namespace Stencil

/-- Laid from token `i` on in a group that ends at token `limit`, the pattern ends
before token `j`; the bindings before and after are `bound` and `bound'`. -/
inductive Lays (v : Vocabulary) (t : Target) :
    Pattern → Nat → Nat → List (String × TokenRange) → Nat → List (String × TokenRange) → Prop where
  | nil {limit i : Nat} {bound : List (String × TokenRange)} : Lays v t .nil limit i bound i bound
  | text {content : String} {offset limit i k j : Nat} {rest : Pattern}
      {bound bound' : List (String × TokenRange)}
      (hends : t.TextEnds content.toList limit i k) (hrest : Lays v t rest limit k bound j bound') :
      Lays v t (.text content offset rest) limit i bound j bound'
  /-- A hole whose name is not bound may end at any of its ends that its kind accepts. -/
  | choice {h : Hole} {offset limit i k j : Nat} {rest : Pattern}
      {bound bound' : List (String × TokenRange)} (hfree : bound.lookup h.name = none)
      (hend : t.CaptureEnd i k h.quantifier) (haccepts : v.accepts h.kind (t.text i k) = true)
      (hrest : Lays v t rest limit k ((h.name, ⟨i, k⟩) :: bound) j bound') :
      Lays v t (.hole h offset rest) limit i bound j bound'
  /-- A hole whose name is bound takes the text bound to it. -/
  | repetition {h : Hole} {offset limit i k j : Nat} {rest : Pattern} {range : TokenRange}
      {bound bound' : List (String × TokenRange)} (hbound : bound.lookup h.name = some range)
      (hik : i ≤ k) (hlimit : k ≤ limit) (htext : t.text i k = t.text range.first range.last)
      (hrest : Lays v t rest limit k bound j bound') :
      Lays v t (.hole h offset rest) limit i bound j bound'
  /-- A block takes a brace group, and its body all that is in the group. -/
  | block {offset limit i j : Nat} {body rest : Pattern}
      {bound bound' bound'' : List (String × TokenRange)} (hi : i < limit)
      (hbrace : t.kind? i = some (.opening .brace))
      (hbody : Lays v t body (t.partner i) (i + 1) bound (t.partner i) bound')
      (hrest : Lays v t rest limit (t.partner i + 1) bound' j bound'') :
      Lays v t (.block offset body rest) limit i bound j bound''

def Aligns (v : Vocabulary) (t : Target) (p : Pattern) (i : Nat) (a : Alignment) : Prop :=
  a.first = i ∧ Lays v t p t.size i [] a.last a.bindings

def Alignment.ends (a : Alignment) : List Nat := choices a.bindings

/-! ## Limits -/

namespace Target

def Inside (t : Target) (limit i : Nat) : Prop :=
  i ≤ limit ∧
    (limit = t.size ∨ ∃ o d, t.kind? o = some (.opening d) ∧ o < i ∧ t.partner o = limit)

namespace Inside

variable {t : Target} {limit i j : Nat}

theorem limit_le_size (h : t.Nested) (hi : t.Inside limit i) : limit ≤ t.size := by
  rcases hi.2 with heq | ⟨o, d, ho, _, heq⟩
  · exact Nat.le_of_eq heq
  · have := h.partner_lt_size ho
    omega

theorem scopeEnd_le (h : t.Nested) (hi : t.Inside limit i) : t.scopeEnd i ≤ limit := by
  obtain ⟨hle, rfl | ⟨o, d, ho, hoi, rfl⟩⟩ := hi
  · exact h.scopeEnd_le_size i
  · exact h.scopeEnd_le_partner ho hoi hle

theorem mono (hi : t.Inside limit i) (hij : i ≤ j) (hj : j ≤ limit) : t.Inside limit j := by
  refine ⟨hj, ?_⟩
  rcases hi.2 with heq | ⟨o, d, ho, hoi, heq⟩
  · exact .inl heq
  · exact .inr ⟨o, d, ho, by omega, heq⟩

theorem opening_succ {d : Delimiter} (h : t.Nested) (ho : t.kind? i = some (.opening d)) :
    t.Inside (t.partner i) (i + 1) :=
  ⟨h.lt_partner ho, .inr ⟨i, d, ho, Nat.lt_succ_self i, rfl⟩⟩

theorem partner_lt {d : Delimiter} (h : t.Nested) (hi : t.Inside limit i)
    (ho : t.kind? i = some (.opening d)) : t.partner i < limit := by
  have hatom : t.Atom i (t.partner i + 1) := .inl ⟨d, ho, rfl⟩
  obtain ⟨_, _, hle⟩ := atom_after h (lt_scopeEnd_of_atom h hatom)
  rw [h.after_opening ho] at hle
  have := hi.scopeEnd_le h
  omega

end Inside

end Target

section

variable {v : Vocabulary} {t : Target}

theorem Lays.inside (h : t.Nested) {p : Pattern} {limit i j : Nat}
    {bound bound' : List (String × TokenRange)} (hlays : Lays v t p limit i bound j bound')
    (hi : t.Inside limit i) : i ≤ j ∧ t.Inside limit j := by
  induction hlays with
  | nil => exact ⟨Nat.le_refl _, hi⟩
  | text hends _ ih =>
      have hrest := ih (hi.mono hends.1 hends.2.1)
      exact ⟨Nat.le_trans hends.1 hrest.1, hrest.2⟩
  | choice _ hend _ _ ih =>
      have hle := Target.captureEnd_le h (Nat.le_trans hi.1 (hi.limit_le_size h)) hend
      have hrest := ih (hi.mono hle.1 (Nat.le_trans hle.2 (hi.scopeEnd_le h)))
      exact ⟨Nat.le_trans hle.1 hrest.1, hrest.2⟩
  | repetition _ hik hlimit _ _ ih =>
      have hrest := ih (hi.mono hik hlimit)
      exact ⟨Nat.le_trans hik hrest.1, hrest.2⟩
  | block _ hbrace _ _ _ ih =>
      have hpartner := hi.partner_lt h hbrace
      have hforward := h.lt_partner hbrace
      have hrest := ih (hi.mono (by omega) hpartner)
      exact ⟨by omega, hrest.2⟩

/-! ## Programs -/

theorem program_hole (h : Hole) (offset : Nat) (rest : Pattern) :
    (Pattern.hole h offset rest).program = .hole h :: rest.program := rfl

theorem program_text (content : String) (offset : Nat) (rest : Pattern) :
    (Pattern.text content offset rest).program =
      .text (segments content.toList) :: rest.program := rfl

theorem program_block (offset : Nat) (body rest : Pattern) :
    (Pattern.block offset body rest).program =
      .enter :: (body.program ++ .leave :: rest.program) := by
  simp [Pattern.program, Pattern.steps, Step.instr]

theorem mem_outcomes_text_iff (hT : t.Tiled) {s s' : State} (hs : s.position ≤ s.limit t)
    (hsize : s.limit t ≤ t.size) {content : String} {program : List Instr} :
    s' ∈ outcomes v t (.text (segments content.toList) :: program) s ↔
      ∃ k, t.TextEnds content.toList (s.limit t) s.position k ∧
        s' ∈ outcomes v t program { s with position := k } := by
  rw [outcomes, List.mem_flatMap]
  constructor
  · rintro ⟨next, hnext, hs'⟩
    obtain ⟨k, hread, rfl⟩ := mem_successors_text_iff.mp hnext
    exact ⟨k, (Target.readAt?_segments_iff hT hs hsize).mp hread, hs'⟩
  · rintro ⟨k, hends, hs'⟩
    have hread := (Target.readAt?_segments_iff hT hs hsize).mpr hends
    exact ⟨_, mem_successors_text_iff.mpr ⟨k, hread, rfl⟩, hs'⟩

theorem mem_outcomes_bound_iff (hT : t.Tiled) {s s' : State} (hs : s.position ≤ s.limit t)
    (hsize : s.limit t ≤ t.size) {h : Hole} {range : TokenRange}
    (hbound : s.bindings.lookup h.name = some range) {program : List Instr} :
    s' ∈ outcomes v t (.hole h :: program) s ↔
      ∃ k, (s.position ≤ k ∧ k ≤ s.limit t ∧
          t.text s.position k = t.text range.first range.last) ∧
        s' ∈ outcomes v t program { s with position := k } := by
  rw [outcomes, List.mem_flatMap]
  constructor
  · rintro ⟨next, hnext, hs'⟩
    obtain ⟨k, hread, rfl⟩ := (mem_successors_bound_iff hbound).mp hnext
    exact ⟨k, (Target.readAt?_literal_iff hT hs hsize).mp hread, hs'⟩
  · rintro ⟨k, hk, hs'⟩
    have hread := (Target.readAt?_literal_iff hT hs hsize).mpr hk
    exact ⟨_, (mem_successors_bound_iff hbound).mpr ⟨k, hread, rfl⟩, hs'⟩

theorem mem_outcomes_free_iff (hN : t.Nested) {s s' : State}
    (hs : t.Inside (s.limit t) s.position) {h : Hole} (hfree : s.bindings.lookup h.name = none)
    {program : List Instr} :
    s' ∈ outcomes v t (.hole h :: program) s ↔
      ∃ k, t.CaptureEnd s.position k h.quantifier ∧
        v.accepts h.kind (t.text s.position k) = true ∧
        s' ∈ outcomes v t program (s.bind h.name k) := by
  have hends : ∀ k, k ∈ t.captureEnds h.quantifier (min (s.limit t) (t.scopeEnd s.position))
      s.position ↔ t.CaptureEnd s.position k h.quantifier := by
    intro k
    rw [Nat.min_eq_right (hs.scopeEnd_le hN)]
    exact Target.mem_captureEnds_iff hN (Nat.le_trans hs.1 (hs.limit_le_size hN))
  rw [outcomes, List.mem_flatMap]
  constructor
  · rintro ⟨next, hnext, hs'⟩
    obtain ⟨k, hk, haccepts, rfl⟩ := (mem_successors_free_iff hfree).mp hnext
    exact ⟨k, (hends k).mp hk, haccepts, hs'⟩
  · rintro ⟨k, hk, haccepts, hs'⟩
    exact ⟨_, (mem_successors_free_iff hfree).mpr ⟨k, (hends k).mpr hk, haccepts, rfl⟩, hs'⟩

theorem mem_outcomes_enter_iff {s s' : State} {program : List Instr} :
    s' ∈ outcomes v t (.enter :: program) s ↔
      (s.position < s.limit t ∧ t.kind? s.position = some (.opening .brace)) ∧
        s' ∈ outcomes v t program
          { s with position := s.position + 1, scopes := t.partner s.position :: s.scopes } := by
  rw [outcomes, List.mem_flatMap]
  constructor
  · rintro ⟨next, hnext, hs'⟩
    obtain ⟨hbrace, rfl⟩ := mem_successors_enter_iff.mp hnext
    exact ⟨hbrace, hs'⟩
  · rintro ⟨hbrace, hs'⟩
    exact ⟨_, mem_successors_enter_iff.mpr ⟨hbrace, rfl⟩, hs'⟩

theorem mem_outcomes_leave_iff {s s' : State} {program : List Instr} :
    s' ∈ outcomes v t (.leave :: program) s ↔
      s.scopes.head? = some s.position ∧
        s' ∈ outcomes v t program
          { s with position := s.position + 1, scopes := s.scopes.tail } := by
  rw [outcomes, List.mem_flatMap]
  constructor
  · rintro ⟨next, hnext, hs'⟩
    obtain ⟨hclosed, rfl⟩ := mem_successors_leave_iff.mp hnext
    exact ⟨hclosed, hs'⟩
  · rintro ⟨hclosed, hs'⟩
    exact ⟨_, mem_successors_leave_iff.mpr ⟨hclosed, rfl⟩, hs'⟩

/-- The program of a pattern leads exactly to the places where the pattern ends. -/
theorem mem_outcomes_program_iff (hT : t.Tiled) (hN : t.Nested) (p : Pattern) (s s' : State)
    (hs : t.Inside (s.limit t) s.position) :
    s' ∈ outcomes v t p.program s ↔
      s'.scopes = s.scopes ∧
        Lays v t p (s.limit t) s.position s.bindings s'.position s'.bindings := by
  have hsize := hs.limit_le_size hN
  induction p generalizing s s' with
  | nil =>
      rw [show Pattern.nil.program = [] from rfl, outcomes, List.mem_singleton]
      constructor
      · rintro rfl
        exact ⟨rfl, .nil⟩
      · rintro ⟨hscopes, hlays⟩
        cases s
        cases s'
        cases hlays
        simp_all
  | text content offset rest ih =>
      rw [program_text, mem_outcomes_text_iff hT hs.1 hsize]
      constructor
      · rintro ⟨k, hends, hs'⟩
        have hnext := hs.mono hends.1 hends.2.1
        obtain ⟨hscopes, hrest⟩ := (ih { s with position := k } s' hnext hsize).mp hs'
        exact ⟨hscopes, .text hends hrest⟩
      · rintro ⟨hscopes, hlays⟩
        cases hlays with
        | @text _ _ _ _ k _ _ _ _ hends hrest =>
            have hnext := hs.mono hends.1 hends.2.1
            exact ⟨k, hends, (ih { s with position := k } s' hnext hsize).mpr ⟨hscopes, hrest⟩⟩
  | hole h offset rest ih =>
      rw [program_hole]
      cases hlookup : s.bindings.lookup h.name with
      | some range =>
          rw [mem_outcomes_bound_iff hT hs.1 hsize hlookup]
          constructor
          · rintro ⟨k, ⟨hik, hkl, htext⟩, hs'⟩
            have hnext := hs.mono hik hkl
            obtain ⟨hscopes, hrest⟩ := (ih { s with position := k } s' hnext hsize).mp hs'
            exact ⟨hscopes, .repetition hlookup hik hkl htext hrest⟩
          · rintro ⟨hscopes, hlays⟩
            cases hlays with
            | choice hfree => simp [hlookup] at hfree
            | @repetition _ _ _ _ k _ _ _ _ _ hbound hik hkl htext hrest =>
                obtain rfl := Option.some.inj (hlookup.symm.trans hbound)
                have hnext := hs.mono hik hkl
                exact ⟨k, ⟨hik, hkl, htext⟩,
                  (ih { s with position := k } s' hnext hsize).mpr ⟨hscopes, hrest⟩⟩
      | none =>
          have hinside : ∀ {k}, t.CaptureEnd s.position k h.quantifier →
              t.Inside (s.limit t) k := by
            intro k hend
            have hle := Target.captureEnd_le hN (Nat.le_trans hs.1 hsize) hend
            exact hs.mono hle.1 (Nat.le_trans hle.2 (hs.scopeEnd_le hN))
          rw [mem_outcomes_free_iff hN hs hlookup]
          constructor
          · rintro ⟨k, hend, haccepts, hs'⟩
            obtain ⟨hscopes, hrest⟩ := (ih (s.bind h.name k) s' (hinside hend) hsize).mp hs'
            exact ⟨hscopes, .choice hlookup hend haccepts hrest⟩
          · rintro ⟨hscopes, hlays⟩
            cases hlays with
            | @choice _ _ _ _ k _ _ _ _ _ hend haccepts hrest =>
                exact ⟨k, hend, haccepts,
                  (ih (s.bind h.name k) s' (hinside hend) hsize).mpr ⟨hscopes, hrest⟩⟩
            | repetition hbound => simp [hlookup] at hbound
  | block offset body rest ihBody ihRest =>
      rw [program_block, mem_outcomes_enter_iff, outcomes_append, List.mem_flatMap]
      -- The body is laid inside the group, the rest again up to the limit outside.
      have hbodyIff (hbrace : t.kind? s.position = some (.opening .brace)) (last : State) :=
        ihBody { s with position := s.position + 1, scopes := t.partner s.position :: s.scopes }
          last (.opening_succ hN hbrace) (Nat.le_of_lt (hN.partner_lt_size hbrace))
      have hrestIff (hbrace : t.kind? s.position = some (.opening .brace))
          (bound : List (String × TokenRange)) :=
        have hle : s.position ≤ t.partner s.position + 1 :=
          Nat.le_of_lt (Nat.lt_succ_of_lt (hN.lt_partner hbrace))
        ihRest ⟨t.partner s.position + 1, s.scopes, bound⟩ s'
          (hs.mono hle (hs.partner_lt hN hbrace)) hsize
      constructor
      · rintro ⟨⟨hlt, hbrace⟩, last, hlast, hs'⟩
        obtain ⟨hclosed, hs'⟩ := mem_outcomes_leave_iff.mp hs'
        obtain ⟨hlastScopes, hbody⟩ := (hbodyIff hbrace last).mp hlast
        obtain ⟨position, scopes, bound⟩ := last
        dsimp only at hlastScopes
        subst hlastScopes
        obtain rfl : t.partner s.position = position := by simpa using hclosed
        obtain ⟨hscopes, hrest⟩ := (hrestIff hbrace bound).mp hs'
        exact ⟨hscopes, .block hlt hbrace hbody hrest⟩
      · rintro ⟨hscopes, hlays⟩
        cases hlays with
        | @block _ _ _ _ _ _ _ bound _ hlt hbrace hbody hrest =>
            refine ⟨⟨hlt, hbrace⟩,
              ⟨t.partner s.position, t.partner s.position :: s.scopes, bound⟩, ?_, ?_⟩
            · exact (hbodyIff hbrace _).mpr ⟨rfl, hbody⟩
            · exact mem_outcomes_leave_iff.mpr ⟨rfl, (hrestIff hbrace bound).mpr ⟨hscopes, hrest⟩⟩

/-! ## The alignment that the search finds -/

theorem mem_outcomes_start_iff (hT : t.Tiled) (hN : t.Nested) {p : Pattern} {i : Nat}
    (hi : i ≤ t.size) {s : State} :
    s ∈ outcomes v t p.program (.start i) ↔
      s.scopes = [] ∧ Aligns v t p i ⟨i, s.position, s.bindings⟩ := by
  have hs : t.Inside ((State.start i).limit t) (State.start i).position := ⟨hi, .inl rfl⟩
  rw [mem_outcomes_program_iff hT hN p (.start i) s hs, Aligns]
  simp [State.start, State.limit]

theorem aligns_of_align (hT : t.Tiled) (hN : t.Nested) {p : Pattern} {i : Nat} (hi : i ≤ t.size)
    {a : Alignment} (h : align v t p.program i = some a) : Aligns v t p i a := by
  rw [align_eq_head?] at h
  obtain ⟨s, hs, rfl⟩ := Option.map_eq_some_iff.mp h
  exact ((mem_outcomes_start_iff hT hN hi).mp (List.mem_of_head? hs)).2

theorem precedes_asymm {ends ends' : List Nat} (h : Precedes ends ends') :
    ¬ Precedes ends' ends := by
  intro h'
  induction h with
  | nil => cases h'
  | cons h ih =>
      cases h' with
      | cons h' => exact ih h'
      | rel h' => omega
  | rel h =>
      cases h' with
      | cons h' => omega
      | rel h' => omega

theorem first_of_head?_outcomes {program : List Instr} {s first : State}
    (h : (outcomes v t program s).head? = some first) :
    ∀ b ∈ outcomes v t program s,
      b = first ∨ Precedes (choices first.bindings) (choices b.bindings) := by
  obtain ⟨later, houtcomes⟩ := List.head?_eq_some_iff.mp h
  have horder := pairwise_outcomes (v := v) (t := t) program s
  rw [houtcomes, List.pairwise_cons] at horder
  rw [houtcomes]
  exact fun b hb => (List.mem_cons.mp hb).imp_right (horder.1 b)

theorem mem_outcomes_of_aligns (hT : t.Tiled) (hN : t.Nested) {p : Pattern} {i : Nat}
    (hi : i ≤ t.size) {a : Alignment} (ha : Aligns v t p i a) :
    (⟨a.last, [], a.bindings⟩ : State) ∈ outcomes v t p.program (.start i) := by
  obtain ⟨first, last, bindings⟩ := a
  obtain rfl : first = i := ha.1
  exact (mem_outcomes_start_iff hT hN hi).mpr ⟨rfl, ha⟩

theorem first_of_align (hT : t.Tiled) (hN : t.Nested) {p : Pattern} {i : Nat} (hi : i ≤ t.size)
    {a b : Alignment} (h : align v t p.program i = some a) (hb : Aligns v t p i b) :
    b = a ∨ Precedes a.ends b.ends := by
  rw [align_eq_head?] at h
  obtain ⟨s, hs, rfl⟩ := Option.map_eq_some_iff.mp h
  have hbefore := first_of_head?_outcomes hs _ (mem_outcomes_of_aligns hT hN hi hb)
  apply hbefore.imp
  · rintro rfl
    exact congrArg (fun first => (⟨first, b.last, b.bindings⟩ : Alignment)) hb.1
  · exact id

theorem exists_align_of_aligns (hT : t.Tiled) (hN : t.Nested) {p : Pattern} {i : Nat}
    (hi : i ≤ t.size) {a : Alignment} (ha : Aligns v t p i a) :
    ∃ b, align v t p.program i = some b := by
  have hne := List.ne_nil_of_mem (mem_outcomes_of_aligns hT hN hi ha)
  rw [align_eq_head?, List.head?_eq_some_head hne]
  exact ⟨_, rfl⟩

theorem align_eq_some_of_first (hT : t.Tiled) (hN : t.Nested) {p : Pattern} {i : Nat}
    (hi : i ≤ t.size) {a : Alignment} (ha : Aligns v t p i a)
    (hfirst : ∀ b, Aligns v t p i b → b = a ∨ Precedes a.ends b.ends) :
    align v t p.program i = some a := by
  obtain ⟨b, hb⟩ := exists_align_of_aligns hT hN hi ha
  rcases hfirst b (aligns_of_align hT hN hi hb) with rfl | hprecedes
  · exact hb
  · rcases first_of_align hT hN hi hb ha with rfl | hprecedes'
    · exact hb
    · exact absurd hprecedes (precedes_asymm hprecedes')

theorem align_congr {t' : Target} (hT : t.Tiled) (hN : t.Nested) (hT' : t'.Tiled)
    (hN' : t'.Nested) {p : Pattern} {i : Nat} (hi : i ≤ t.size) (hi' : i ≤ t'.size)
    (h : ∀ a, Aligns v t p i a ↔ Aligns v t' p i a) :
    align v t p.program i = align v t' p.program i := by
  ext a
  constructor
  · intro ha
    apply align_eq_some_of_first hT' hN' hi' ((h a).mp (aligns_of_align hT hN hi ha))
    exact fun b hb => first_of_align hT hN hi ha ((h b).mpr hb)
  · intro ha
    apply align_eq_some_of_first hT hN hi ((h a).mpr (aligns_of_align hT' hN' hi' ha))
    exact fun b hb => first_of_align hT' hN' hi' ha ((h b).mp hb)

/-- The search finds an alignment if there is one, and it finds the one whose ends
come first: at the first hole where another alignment differs, the other one's
capture is shorter. -/
theorem align_eq_some_iff_first {source : String} {tokens : List Target.Token}
    (ht : Target.ofTokens? source tokens = .ok t) (v : Vocabulary) (p : Pattern) {i : Nat}
    (hi : i ≤ t.size) :
    ((align v t p.program i).isSome ↔ ∃ a, Aligns v t p i a) ∧
      ∀ a, align v t p.program i = some a ↔
        Aligns v t p i a ∧ ∀ b, Aligns v t p i b → b = a ∨ Precedes a.ends b.ends := by
  have hT := Target.tiled_of_ofTokens? ht
  have hN := Target.nested_of_ofTokens? ht
  refine ⟨?_, fun a => ⟨fun ha => ?_, fun ⟨ha, hfirst⟩ => ?_⟩⟩
  · rw [Option.isSome_iff_exists]
    constructor
    · rintro ⟨a, ha⟩
      exact ⟨a, aligns_of_align hT hN hi ha⟩
    · rintro ⟨a, ha⟩
      exact exists_align_of_aligns hT hN hi ha
  · exact ⟨aligns_of_align hT hN hi ha, fun b hb => first_of_align hT hN hi ha hb⟩
  · exact align_eq_some_of_first hT hN hi ha hfirst

/-- Here the first hole has to give way twice, and its text comes again behind
the block. -/
theorem align_braced_list :
    ∃ t p, Target.ofTokens? "{x, y, z} x, y; w" (Target.scan "{x, y, z} x, y; w") = .ok t ∧
      Pattern.compile "{:[[a]], :[b]} :[a]:[[c]]" = .ok p ∧ 0 ≤ t.size ∧
      Aligns .builtin t p 0 ⟨0, 17, [("c", ⟨14, 17⟩), ("b", ⟨7, 8⟩), ("a", ⟨1, 5⟩)]⟩ ∧
      ∀ b, Aligns .builtin t p 0 b →
        b = ⟨0, 17, [("c", ⟨14, 17⟩), ("b", ⟨7, 8⟩), ("a", ⟨1, 5⟩)]⟩ ∨
          Precedes [5, 8, 17] b.ends := by
  have hfound : (do
        let t ← (Target.tokenize "{x, y, z} x, y; w").toOption
        let p ← (Pattern.compile "{:[[a]], :[b]} :[a]:[[c]]").toOption
        return align .builtin t p.program 0) =
      some (some ⟨0, 17, [("c", ⟨14, 17⟩), ("b", ⟨7, 8⟩), ("a", ⟨1, 5⟩)]⟩) := by decide +kernel
  obtain ⟨t, p, ht, hp, hfound⟩ := exists_ok_of_bind_toOption hfound
  have hfirst := (align_eq_some_iff_first ht .builtin p (Nat.zero_le _)).2
    ⟨0, 17, [("c", ⟨14, 17⟩), ("b", ⟨7, 8⟩), ("a", ⟨1, 5⟩)]⟩
  exact ⟨t, p, ht, hp, Nat.zero_le _, hfirst.mp hfound⟩

end

end Stencil
