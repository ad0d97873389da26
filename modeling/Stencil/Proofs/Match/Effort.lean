import Mathlib.Algebra.Order.BigOperators.Group.Finset
import Mathlib.Algebra.Ring.GeomSum
import Mathlib.Data.Finset.Dedup
import Stencil.Proofs.Match.Alignment
import Stencil.Proofs.NameMap
import Stencil.Proofs.Pattern.Holes

/-!
# The effort of the search

The search once more, counting the branches it takes up and the instructions it
follows in each of them.  A branch forks only at a name that nothing is bound to, into
at most one branch more than there are tokens, and the name is bound in all of them.
So the names that are still free bound what a branch can cost, and the cost of the
waiting branches falls with every branch taken up.
-/

namespace Stencil

/-! ## Forks -/

theorem forked_cases {v : Vocabulary} {t : Target} {instr : Instr} {rest : List Instr} {s : State}
    {branches : List Branch} (h : advance v t (instr :: rest) s = .forked branches) :
    (∃ hole, instr = .hole hole ∧ s.bindings.lookup hole.name = none ∧
      branches = (successors v t instr s).map (⟨rest, ·⟩)) ∨
    (s.isFree instr = false ∧ branches = []) ∨
    ∃ s' ∈ successors v t instr s, s.isFree instr = false ∧
      advance v t rest s' = .forked branches := by
  simp only [advance] at h
  cases hfree : s.isFree instr with
  | true =>
      obtain ⟨hole, hhole, hlookup⟩ := exists_hole_of_isFree hfree
      simp only [hfree] at h
      exact .inl ⟨hole, hhole, hlookup, (Progress.forked.inj h).symm⟩
  | false =>
      cases hnext : successors v t instr s with
      | nil =>
          simp only [hfree, hnext] at h
          exact .inr (.inl ⟨rfl, (Progress.forked.inj h).symm⟩)
      | cons s' later =>
          simp only [hfree, hnext] at h
          exact .inr (.inr ⟨s', List.mem_cons_self, rfl, h⟩)

/-! ## The counted search -/

namespace Counted

def advance (v : Vocabulary) (t : Target) : List Instr → State → Progress × Nat
  | [], s => (.done s, 0)
  | instr :: rest, s =>
    let next := successors v t instr s
    if s.isFree instr then (.forked (next.map (⟨rest, ·⟩)), 1)
    else match next with
      | [] => (.forked [], 1)
      | s' :: _ =>
        let (progress, count) := advance v t rest s'
        (progress, count + 1)

section

variable {v : Vocabulary} {t : Target}

theorem advance_fst (ahead : List Instr) (s : State) :
    (advance v t ahead s).1 = Stencil.advance v t ahead s := by
  induction ahead generalizing s with
  | nil => rfl
  | cons instr rest ih =>
      simp only [advance, Stencil.advance]
      split
      · rfl
      · cases successors v t instr s with
        | nil => rfl
        | cons s' _ => exact ih s'

theorem advance_snd_le (ahead : List Instr) (s : State) :
    (advance v t ahead s).2 ≤ ahead.length := by
  induction ahead generalizing s with
  | nil => exact Nat.le_refl 0
  | cons instr rest ih =>
      simp only [advance, List.length_cons]
      split
      · exact Nat.le_add_left 1 _
      · split
        · exact Nat.le_add_left 1 _
        · exact Nat.succ_le_succ (ih _)

theorem advance_of_counted {ahead : List Instr} {s : State} {progress : Progress} {count : Nat}
    (h : advance v t ahead s = (progress, count)) :
    Stencil.advance v t ahead s = progress ∧ count ≤ ahead.length := by
  have hfst := advance_fst (v := v) (t := t) ahead s
  have hsnd := advance_snd_le (v := v) (t := t) ahead s
  rw [h] at hfst hsnd
  exact ⟨hfst.symm, hsnd⟩

theorem ahead_suffix_of_forked {ahead : List Instr} {s : State} {branches : List Branch}
    (h : Stencil.advance v t ahead s = .forked branches) {b : Branch} (hb : b ∈ branches) :
    b.ahead <:+ ahead := by
  induction ahead generalizing s with
  | nil => simp [Stencil.advance] at h
  | cons instr rest ih =>
      rcases forked_cases h with ⟨hole, rfl, _, rfl⟩ | ⟨_, rfl⟩ | ⟨s', _, _, hrest⟩
      · obtain ⟨next, _, rfl⟩ := List.mem_map.mp hb
        exact List.suffix_cons _ _
      · simp at hb
      · exact (ih hrest).trans (List.suffix_cons _ _)

end

/-- The first state that waiting branches lead to, with one count for each branch taken
up: that of the instructions followed in it. -/
def explore (v : Vocabulary) (t : Target) : List Branch → Option State × List Nat
  | [] => (none, [])
  | b :: waiting =>
    match h : advance v t b.ahead b.state with
    | (.done s, count) => (some s, [count])
    | (.forked branches, count) =>
      have := length_states_lt_of_forked (advance_of_counted h).1
      let (found, counts) := explore v t (branches ++ waiting)
      (found, count :: counts)
  termination_by waiting => (waiting.flatMap (·.states v t)).length
  decreasing_by
    rw [List.flatMap_append, List.flatMap_cons, List.length_append, List.length_append]
    exact Nat.add_lt_add_right this _

theorem explore_fst {v : Vocabulary} {t : Target} (waiting : List Branch) :
    (explore v t waiting).1 = Stencil.explore v t waiting := by
  fun_induction explore v t waiting with
  | case1 => rw [Stencil.explore]
  | case2 b waiting s count h =>
      rw [explore_eq_head?, List.flatMap_cons, ← outcomes_advance, (advance_of_counted h).1]
      rfl
  | case3 b waiting branches count h _ found counts hrest ih =>
      rw [hrest, explore_eq_head?, List.flatMap_append] at ih
      rw [ih, explore_eq_head?, List.flatMap_cons, ← outcomes_advance b.ahead,
        (advance_of_counted h).1]
      rfl

def align (v : Vocabulary) (t : Target) (program : List Instr) (i : Nat) :
    Option Alignment × List Nat :=
  let (found, counts) := explore v t [⟨program, .start i⟩]
  (found.map fun s => ⟨i, s.position, s.bindings⟩, counts)

end Counted

/-! ## Choices of a hole -/

namespace Target

variable (t : Target)

theorem length_groupEnds_le (limit i : Nat) : (t.groupEnds limit i).length ≤ limit - i := by
  fun_induction t.groupEnds limit i with
  | case1 i hgroup ih =>
      have := t.lt_after i
      have := hgroup.1
      rw [List.length_cons]
      omega
  | case2 i hend => exact Nat.zero_le _

theorem length_atomEnds_le (limit i : Nat) : (t.atomEnds limit i).length ≤ limit - i + 1 := by
  fun_induction t.atomEnds limit i with
  | case1 i hlt ih =>
      have := t.lt_after i
      rw [List.length_cons]
      omega
  | case2 i hend => exact Nat.le_add_left 1 _

theorem length_captureEnds_le (q : Quantifier) (limit i : Nat) :
    (t.captureEnds q limit i).length ≤ limit + 1 := by
  cases q with
  | block =>
      have := t.length_atomEnds_le limit i
      rw [captureEnds]
      omega
  | one =>
      have := t.length_groupEnds_le limit (i + 1)
      rw [captureEnds, unitEnds]
      split
      · split <;> simp only [List.length_cons, List.length_nil] <;> omega
      · exact Nat.zero_le _

end Target

section

variable {v : Vocabulary} {t : Target} {instr : Instr} {s s' : State}

theorem length_successors_le (hN : t.Nested) (instr : Instr) (s : State) :
    (successors v t instr s).length ≤ t.size + 1 := by
  cases hfree : s.isFree instr with
  | false =>
      rcases successors_of_not_isFree (v := v) (t := t) hfree with hnil | ⟨s', hone⟩
      · simp [hnil]
      · simp [hone]
  | true =>
      obtain ⟨h, rfl, hlookup⟩ := exists_hole_of_isFree hfree
      simp only [successors, hlookup, List.length_map]
      have haccepted := (acceptedEnds_sublist (v := v) (t := t) h.kind s.position
        (t.captureEnds h.quantifier (min (s.limit t) (t.scopeEnd s.position))
          s.position).reverse).length_le
      have hends := t.length_captureEnds_le h.quantifier
        (min (s.limit t) (t.scopeEnd s.position)) s.position
      have hscope := hN.scopeEnd_le_size s.position
      rw [List.length_reverse] at haccepted
      omega

/-! ## Free names -/

def Instr.name? : Instr → Option String
  | .hole h => some h.name
  | _ => none

def Branch.freeNames (b : Branch) : Finset String :=
  {name ∈ (b.ahead.filterMap Instr.name?).toFinset | b.state.bindings.lookup name = none}

theorem mem_freeNames_iff {ahead : List Instr} {name : String} :
    name ∈ (⟨ahead, s⟩ : Branch).freeNames ↔
      (∃ instr ∈ ahead, instr.name? = some name) ∧ s.bindings.lookup name = none := by
  simp [Branch.freeNames]

theorem freeNames_subset {rest : List Instr} (hsame : s'.bindings = s.bindings) :
    (⟨rest, s'⟩ : Branch).freeNames ⊆ (⟨instr :: rest, s⟩ : Branch).freeNames := by
  intro name hname
  rw [mem_freeNames_iff, hsame] at hname
  obtain ⟨⟨instr', hmem, hinstr⟩, hlookup⟩ := hname
  exact mem_freeNames_iff.mpr ⟨⟨instr', List.mem_cons_of_mem _ hmem, hinstr⟩, hlookup⟩

theorem freeNames_bind {h : Hole} {rest : List Instr} (stop : Nat) :
    (⟨rest, s.bind h.name stop⟩ : Branch).freeNames =
      (⟨.hole h :: rest, s⟩ : Branch).freeNames.erase h.name := by
  ext name
  rw [Finset.mem_erase, mem_freeNames_iff, mem_freeNames_iff, State.bind, lookup_cons_eq_ite]
  by_cases hname : name = h.name
  · simp [hname]
  · simp [hname, Ne.symm hname, Instr.name?]

theorem card_freeNames_start_le (p : Pattern) (i : Nat) :
    (⟨p.program, .start i⟩ : Branch).freeNames.card ≤ p.holeNames.length := by
  have hsubset : (⟨p.program, .start i⟩ : Branch).freeNames ⊆ p.holeNames.toFinset := by
    intro name hname
    obtain ⟨⟨instr, hmem, hinstr⟩, _⟩ := mem_freeNames_iff.mp hname
    cases instr with
    | text segs | enter | leave => simp [Instr.name?] at hinstr
    | hole h =>
        obtain rfl := Option.some.inj hinstr
        exact List.mem_toFinset.mpr (Pattern.mem_holeNames_of_mem_program hmem)
  exact (Finset.card_le_card hsubset).trans p.holeNames.toFinset_card_le

/-! ## What a branch can cost -/

/-- How many nodes there are in a tree of this depth where each node has one child more
than `n`. -/
def treeSize (n depth : Nat) : Nat := ∑ k ∈ Finset.range (depth + 1), (n + 1) ^ k

theorem treeSize_succ (n depth : Nat) :
    treeSize n (depth + 1) = (n + 1) * treeSize n depth + 1 :=
  geom_sum_succ

theorem treeSize_mono (n : Nat) {depth depth' : Nat} (h : depth ≤ depth') :
    treeSize n depth ≤ treeSize n depth' :=
  Finset.sum_le_sum_of_subset (Finset.range_mono (Nat.succ_le_succ h))

theorem treeSize_pos (n depth : Nat) : 0 < treeSize n depth :=
  Nat.lt_of_lt_of_le (by simp [treeSize]) (treeSize_mono n (Nat.zero_le depth))

def Branch.cost (t : Target) (b : Branch) : Nat := treeSize t.size b.freeNames.card

theorem cost_le_of_not_isFree {rest : List Instr} (hfree : s.isFree instr = false)
    (hs' : s' ∈ successors v t instr s) :
    (⟨rest, s'⟩ : Branch).cost t ≤ (⟨instr :: rest, s⟩ : Branch).cost t :=
  treeSize_mono _ (Finset.card_le_card (freeNames_subset (bindings_of_not_isFree hfree hs')))

theorem sum_cost_lt_of_free (hN : t.Nested) {h : Hole} {rest : List Instr}
    (hfree : s.bindings.lookup h.name = none) :
    ((successors v t (.hole h) s).map fun next => (⟨rest, next⟩ : Branch).cost t).sum <
      (⟨.hole h :: rest, s⟩ : Branch).cost t := by
  have hmem : h.name ∈ (⟨.hole h :: rest, s⟩ : Branch).freeNames :=
    mem_freeNames_iff.mpr ⟨⟨_, List.mem_cons_self, rfl⟩, hfree⟩
  have hcard := Finset.card_erase_add_one hmem
  generalize hnames : (Finset.erase _ h.name).card = names at hcard
  have hchoice : ∀ c ∈ (successors v t (.hole h) s).map fun next => (⟨rest, next⟩ : Branch).cost t,
      c ≤ treeSize t.size names := by
    intro c hc
    obtain ⟨next, hnext, rfl⟩ := List.mem_map.mp hc
    obtain ⟨stop, _, _, rfl⟩ := (mem_successors_free_iff hfree).mp hnext
    rw [Branch.cost, freeNames_bind, hnames]
  calc ((successors v t (.hole h) s).map fun next => (⟨rest, next⟩ : Branch).cost t).sum
      ≤ (successors v t (.hole h) s).length * treeSize t.size names := by
        simpa using List.sum_le_card_nsmul _ _ hchoice
    _ ≤ (t.size + 1) * treeSize t.size names :=
        Nat.mul_le_mul_right _ (length_successors_le hN (.hole h) s)
    _ < (⟨.hole h :: rest, s⟩ : Branch).cost t := by
        rw [Branch.cost, ← hcard, treeSize_succ]
        exact Nat.lt_succ_self _

/-- The step: a branch costs more than all the branches that it forks into. -/
theorem sum_cost_lt_of_forked (hN : t.Nested) {ahead : List Instr} {branches : List Branch}
    (h : advance v t ahead s = .forked branches) :
    (branches.map (·.cost t)).sum < (⟨ahead, s⟩ : Branch).cost t := by
  induction ahead generalizing s with
  | nil => simp [advance] at h
  | cons instr rest ih =>
      rcases forked_cases h with ⟨hole, rfl, hlookup, rfl⟩ | ⟨_, rfl⟩ | ⟨s', hs', hfree, hrest⟩
      · rw [List.map_map]
        exact sum_cost_lt_of_free hN hlookup
      · exact treeSize_pos _ _
      · exact (ih hrest).trans_le (cost_le_of_not_isFree hfree hs')

/-- The run: no more branches are taken up than the waiting ones can cost. -/
theorem Counted.length_explore_le (hN : t.Nested) (waiting : List Branch) :
    (explore v t waiting).2.length ≤ (waiting.map (·.cost t)).sum := by
  fun_induction explore v t waiting with
  | case1 => exact Nat.le_refl 0
  | case2 b waiting s count h =>
      have hpos : 0 < b.cost t := treeSize_pos _ _
      rw [List.map_cons, List.sum_cons, List.length_singleton]
      omega
  | case3 b waiting branches count h _ found counts hrest ih =>
      have hstep : (branches.map (·.cost t)).sum < b.cost t :=
        sum_cost_lt_of_forked hN (advance_of_counted h).1
      simp only [hrest, List.map_append, List.sum_append] at ih
      rw [List.map_cons, List.sum_cons, List.length_cons]
      omega

theorem Counted.count_le_of_mem_explore {limit : Nat} {waiting : List Branch}
    (hahead : ∀ b ∈ waiting, b.ahead.length ≤ limit) :
    ∀ count ∈ (explore v t waiting).2, count ≤ limit := by
  fun_induction explore v t waiting with
  | case1 => simp
  | case2 b waiting s count h =>
      have hcount := (advance_of_counted h).2
      simpa using hcount.trans (hahead b List.mem_cons_self)
  | case3 b waiting branches count h _ found counts hrest ih =>
      obtain ⟨hforked, hcount⟩ := advance_of_counted h
      rw [List.forall_mem_cons] at hahead
      have hbranches : ∀ b' ∈ branches ++ waiting, b'.ahead.length ≤ limit := by
        intro b' hb'
        rcases List.mem_append.mp hb' with hfork | hwaiting
        · exact (ahead_suffix_of_forked hforked hfork).length_le.trans hahead.1
        · exact hahead.2 b' hwaiting
      have hcounts := ih hbranches
      rw [hrest] at hcounts
      exact List.forall_mem_cons.mpr ⟨hcount.trans hahead.1, hcounts⟩

end

/-- The search ends within a bound that is known beforehand.  With `n` tokens, and `h`
names in the pattern, it takes up at most `(n + 1) ^ 0 + … + (n + 1) ^ h` branches, and
follows in none of them more instructions than the program has. -/
theorem align_effort {source : String} {tokens : List Target.Token} {t : Target}
    (ht : Target.ofTokens? source tokens = .ok t) (v : Vocabulary) (p : Pattern) (i : Nat) :
    (Counted.align v t p.program i).1 = align v t p.program i ∧
      (Counted.align v t p.program i).2.length ≤
        ∑ k ∈ Finset.range (p.holeNames.length + 1), (t.size + 1) ^ k ∧
      ∀ count ∈ (Counted.align v t p.program i).2, count ≤ p.program.length := by
  have hstart := card_freeNames_start_le p i
  have hbranches := Counted.length_explore_le (v := v) (Target.nested_of_ofTokens? ht)
    [⟨p.program, .start i⟩]
  rw [List.map_singleton, List.sum_singleton] at hbranches
  refine ⟨?_, hbranches.trans (treeSize_mono _ hstart), ?_⟩
  · rw [align, ← Counted.explore_fst]
    rfl
  · exact Counted.count_le_of_mem_explore (by simp)

/-- Both holes have to give way before their commas are found; the repeated one leaves
no choice and is followed along with the texts around it. -/
theorem align_effort_repeated_name :
    ∃ t p, Target.ofTokens? "a, b, a;" (Target.scan "a, b, a;") = .ok t ∧
      Pattern.compile ":[[x]], :[[y]], :[x];" = .ok p ∧
      Counted.align .builtin t p.program 0 =
        (some ⟨0, 8, [("y", ⟨3, 4⟩), ("x", ⟨0, 1⟩)]⟩,
          [1, 1, 1, 1, 1, 2, 1, 1, 1, 1, 1, 2, 1, 1, 1, 1, 3]) ∧
      (Counted.align .builtin t p.program 0).1 = align .builtin t p.program 0 ∧
      (Counted.align .builtin t p.program 0).2.length ≤
        ∑ k ∈ Finset.range (p.holeNames.length + 1), (t.size + 1) ^ k ∧
      ∀ count ∈ (Counted.align .builtin t p.program 0).2, count ≤ p.program.length := by
  have hrun : (do
        let t ← (Target.tokenize "a, b, a;").toOption
        let p ← (Pattern.compile ":[[x]], :[[y]], :[x];").toOption
        return Counted.align .builtin t p.program 0) =
      some (some ⟨0, 8, [("y", ⟨3, 4⟩), ("x", ⟨0, 1⟩)]⟩,
        [1, 1, 1, 1, 1, 2, 1, 1, 1, 1, 1, 2, 1, 1, 1, 1, 3]) := by decide +kernel
  obtain ⟨t, p, ht, hp, hrun⟩ := exists_ok_of_bind_toOption hrun
  exact ⟨t, p, ht, hp, hrun, align_effort ht .builtin p 0⟩

end Stencil
