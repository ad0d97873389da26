import Mathlib.Data.List.Lex
import Stencil.Proofs.Match.CaptureEnds

/-!
# Search

All the states that a program can lead to, in the order of the search.  The
search finds the first of them, and the order is that of the ends chosen for the
holes: the first ends that differ decide, the longer one coming first.
-/

namespace Stencil

def outcomes (v : Vocabulary) (t : Target) : List Instr → State → List State
  | [], s => [s]
  | instr :: rest, s => (successors v t instr s).flatMap (outcomes v t rest)

def choices (bindings : List (String × TokenRange)) : List Nat :=
  (bindings.map (·.2.last)).reverse

/-- At the first difference the end chosen in `ends` is the later one. -/
def Precedes (ends ends' : List Nat) : Prop := List.Lex (fun stop stop' => stop' < stop) ends ends'

section

variable {v : Vocabulary} {t : Target} {instr : Instr} {s : State}

/-! ## Single instructions -/

theorem acceptedEnds_eq_filter (kind : CaptureKind) (i : Nat) (ends : List Nat) :
    t.acceptedEnds v kind i ends = ends.filter fun stop => v.accepts kind (t.text i stop) := by
  rw [Target.acceptedEnds]
  split
  · rename_i hany
    simp [hany, Vocabulary.accepts]
  · rfl

theorem mem_acceptedEnds_iff {kind : CaptureKind} {i stop : Nat} {ends : List Nat} :
    stop ∈ t.acceptedEnds v kind i ends ↔ stop ∈ ends ∧ v.accepts kind (t.text i stop) = true := by
  rw [acceptedEnds_eq_filter, List.mem_filter]

theorem acceptedEnds_sublist (kind : CaptureKind) (i : Nat) (ends : List Nat) :
    (t.acceptedEnds v kind i ends).Sublist ends := by
  rw [acceptedEnds_eq_filter]
  exact List.filter_sublist

theorem exists_hole_of_isFree (hfree : s.isFree instr = true) :
    ∃ h, instr = .hole h ∧ s.bindings.lookup h.name = none := by
  cases instr with
  | text segs | enter | leave => simp [State.isFree] at hfree
  | hole h => exact ⟨h, rfl, Option.isNone_iff_eq_none.mp hfree⟩

theorem successors_of_not_isFree (hfree : s.isFree instr = false) :
    successors v t instr s = [] ∨ ∃ s', successors v t instr s = [s'] := by
  cases instr with
  | text segs =>
      simp only [successors]
      split <;> simp
  | enter =>
      simp only [successors]
      split <;> simp
  | leave =>
      simp only [successors]
      split <;> simp
  | hole h =>
      simp only [successors]
      split
      · split <;> simp
      · rename_i hnone
        simp [State.isFree, hnone] at hfree

theorem mem_successors_text_iff {segs : List Segment} {s' : State} :
    s' ∈ successors v t (.text segs) s ↔
      ∃ stop, t.readAt? segs s.position (s.limit t) = some stop ∧
        s' = { s with position := stop } := by
  simp only [successors]
  split <;> simp_all

theorem mem_successors_enter_iff {s' : State} :
    s' ∈ successors v t .enter s ↔
      (s.position < s.limit t ∧ t.kind? s.position = some (.opening .brace)) ∧
        s' = { s with position := s.position + 1, scopes := t.partner s.position :: s.scopes } := by
  simp only [successors]
  split <;> simp_all

theorem mem_successors_leave_iff {s' : State} :
    s' ∈ successors v t .leave s ↔
      s.scopes.head? = some s.position ∧
        s' = { s with position := s.position + 1, scopes := s.scopes.tail } := by
  simp only [successors]
  split <;> simp_all

theorem mem_successors_bound_iff {h : Hole} {bound : TokenRange} {s' : State}
    (hbound : s.bindings.lookup h.name = some bound) :
    s' ∈ successors v t (.hole h) s ↔
      ∃ stop, t.readAt? [.literal (t.text bound.first bound.last)] s.position (s.limit t) =
          some stop ∧
        s' = { s with position := stop } := by
  simp only [successors, hbound]
  split <;> simp_all

theorem mem_successors_free_iff {h : Hole} {s' : State}
    (hfree : s.bindings.lookup h.name = none) :
    s' ∈ successors v t (.hole h) s ↔
      ∃ stop, stop ∈ t.captureEnds h.quantifier (min (s.limit t) (t.scopeEnd s.position))
          s.position ∧
        v.accepts h.kind (t.text s.position stop) = true ∧ s' = s.bind h.name stop := by
  simp only [successors, hfree, List.mem_map, mem_acceptedEnds_iff, List.mem_reverse]
  constructor
  · rintro ⟨stop, ⟨hstop, haccepts⟩, rfl⟩
    exact ⟨stop, hstop, haccepts, rfl⟩
  · rintro ⟨stop, hstop, haccepts, rfl⟩
    exact ⟨stop, ⟨hstop, haccepts⟩, rfl⟩

theorem bindings_of_mem_successors {s' : State} (h : s' ∈ successors v t instr s) :
    s'.bindings = s.bindings ∨
      ∃ hole stop, instr = .hole hole ∧ s.bindings.lookup hole.name = none ∧
        s' = s.bind hole.name stop := by
  cases instr with
  | text segs =>
      obtain ⟨_, _, rfl⟩ := mem_successors_text_iff.mp h
      exact .inl rfl
  | enter =>
      obtain ⟨_, rfl⟩ := mem_successors_enter_iff.mp h
      exact .inl rfl
  | leave =>
      obtain ⟨_, rfl⟩ := mem_successors_leave_iff.mp h
      exact .inl rfl
  | hole hole =>
      cases hlookup : s.bindings.lookup hole.name with
      | some bound =>
          obtain ⟨_, _, rfl⟩ := (mem_successors_bound_iff hlookup).mp h
          exact .inl rfl
      | none =>
          obtain ⟨stop, _, _, hs'⟩ := (mem_successors_free_iff hlookup).mp h
          exact .inr ⟨hole, stop, rfl, hlookup, hs'⟩

theorem bindings_of_not_isFree (hfree : s.isFree instr = false)
    (hs' : s' ∈ successors v t instr s) : s'.bindings = s.bindings := by
  rcases bindings_of_mem_successors hs' with hsame | ⟨hole, stop, rfl, hlookup, _⟩
  · exact hsame
  · simp [State.isFree, hlookup] at hfree

theorem bindings_suffix_of_mem_successors {s' : State} (h : s' ∈ successors v t instr s) :
    s.bindings <:+ s'.bindings := by
  rcases bindings_of_mem_successors h with hsame | ⟨hole, stop, _, _, rfl⟩
  · exact hsame ▸ List.suffix_refl _
  · exact List.suffix_cons _ _

theorem bindings_suffix_of_mem_outcomes {program : List Instr} {s' : State}
    (h : s' ∈ outcomes v t program s) : s.bindings <:+ s'.bindings := by
  induction program generalizing s with
  | nil =>
      rw [outcomes, List.mem_singleton] at h
      exact h ▸ List.suffix_refl _
  | cons instr rest ih =>
      rw [outcomes, List.mem_flatMap] at h
      obtain ⟨next, hnext, h⟩ := h
      exact (bindings_suffix_of_mem_successors hnext).trans (ih h)

/-! ## Order -/

theorem choices_of_suffix {bindings bindings' : List (String × TokenRange)}
    (h : bindings <:+ bindings') : ∃ later, choices bindings' = choices bindings ++ later := by
  obtain ⟨newer, rfl⟩ := h
  exact ⟨choices newer, by simp [choices]⟩

theorem precedes_of_bind {name : String} {stop stop' : Nat} (hlt : stop' < stop) {a b : State}
    (ha : (s.bind name stop).bindings <:+ a.bindings)
    (hb : (s.bind name stop').bindings <:+ b.bindings) :
    Precedes (choices a.bindings) (choices b.bindings) := by
  obtain ⟨later, ha⟩ := choices_of_suffix ha
  obtain ⟨later', hb⟩ := choices_of_suffix hb
  have hbind : ∀ stop, choices (s.bind name stop).bindings = choices s.bindings ++ [stop] := by
    intro stop
    simp [choices, State.bind]
  rw [ha, hb, hbind, hbind, List.append_assoc, List.append_assoc]
  exact List.Lex.append_left (fun stop stop' => stop' < stop) (.rel hlt) _

theorem pairwise_outcomes (program : List Instr) (s : State) :
    (outcomes v t program s).Pairwise fun a b =>
      Precedes (choices a.bindings) (choices b.bindings) := by
  induction program generalizing s with
  | nil => simp [outcomes]
  | cons instr rest ih =>
      rw [outcomes, List.pairwise_flatMap]
      refine ⟨fun next _ => ih next, ?_⟩
      cases hfree : s.isFree instr with
      | false =>
          rcases successors_of_not_isFree (v := v) (t := t) hfree with hnil | ⟨s', hone⟩
          · simp [hnil]
          · simp [hone]
      | true =>
          obtain ⟨h, rfl, hlookup⟩ := exists_hole_of_isFree hfree
          simp only [successors, hlookup, List.pairwise_map]
          have hends := List.pairwise_reverse.mpr
            (t.pairwise_captureEnds h.quantifier (min (s.limit t) (t.scopeEnd s.position))
              s.position)
          refine (hends.sublist (acceptedEnds_sublist ..)).imp ?_
          intro stop stop' hlt a ha b hb
          exact precedes_of_bind hlt (bindings_suffix_of_mem_outcomes ha)
            (bindings_suffix_of_mem_outcomes hb)

/-! ## Waiting branches -/

def Progress.outcomes (v : Vocabulary) (t : Target) : Progress → List State
  | .done s => [s]
  | .forked branches => branches.flatMap fun b => Stencil.outcomes v t b.ahead b.state

theorem outcomes_advance (ahead : List Instr) (s : State) :
    (advance v t ahead s).outcomes v t = outcomes v t ahead s := by
  induction ahead generalizing s with
  | nil => rfl
  | cons instr rest ih =>
      simp only [advance, outcomes]
      cases hfree : s.isFree instr with
      | true => simp [Progress.outcomes, List.flatMap_map]
      | false =>
          rcases successors_of_not_isFree (v := v) (t := t) hfree with hnil | ⟨s', hone⟩
          · simp [hnil, Progress.outcomes]
          · simpa [hone] using ih s'

/-- The search ends at the first of the states that the branches lead to. -/
theorem explore_eq_head? (waiting : List Branch) :
    explore v t waiting = (waiting.flatMap fun b => outcomes v t b.ahead b.state).head? := by
  fun_induction explore v t waiting with
  | case1 => rfl
  | case2 b waiting s hadvance =>
      rw [List.flatMap_cons, ← outcomes_advance, hadvance]
      rfl
  | case3 b waiting branches hadvance _ ih =>
      rw [ih, List.flatMap_append, List.flatMap_cons, ← outcomes_advance b.ahead, hadvance]
      rfl

theorem align_eq_head? (program : List Instr) (i : Nat) :
    align v t program i =
      (outcomes v t program (.start i)).head?.map fun s => ⟨i, s.position, s.bindings⟩ := by
  rw [align, explore_eq_head?]
  simp

theorem outcomes_append (program program' : List Instr) (s : State) :
    outcomes v t (program ++ program') s =
      (outcomes v t program s).flatMap (outcomes v t program') := by
  induction program generalizing s with
  | nil => simp [outcomes]
  | cons instr rest ih =>
      simp only [List.cons_append, outcomes, List.flatMap_assoc]
      congr 1
      funext next
      exact ih next

end

end Stencil
