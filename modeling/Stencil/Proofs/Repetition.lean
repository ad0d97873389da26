import Stencil.Proofs.Pattern.Likeness
import Stencil.Proofs.Rule

/-!
# Repeated patterns

A rule whose pattern is like that of an earlier one is warned about once, with the
nearest such rule.  A hash table of the patterns seen so far finds the same rules
whatever the hash is made from the marks of a pattern.  Where there is no warning, the
rules have programs of their own.
-/

namespace Stencil

/-! ## Looking patterns up by hash -/

/-- A pattern as a key of a hash table; `mix` makes the hash from the marks. -/
structure PatternKey (mix : List Mark → UInt64) where
  pattern : Pattern

section

variable {mix : List Mark → UInt64}

instance : BEq (PatternKey mix) := ⟨fun a b => a.pattern.alike b.pattern⟩

instance : Hashable (PatternKey mix) := ⟨fun a => mix a.pattern.marks⟩

theorem PatternKey.beq_iff {a b : PatternKey mix} :
    (a == b) = true ↔ a.pattern.marks = b.pattern.marks := Pattern.alike_iff_marks_eq

instance : EquivBEq (PatternKey mix) where
  rfl := PatternKey.beq_iff.mpr rfl
  symm h := PatternKey.beq_iff.mpr (PatternKey.beq_iff.mp h).symm
  trans h h' := PatternKey.beq_iff.mpr ((PatternKey.beq_iff.mp h).trans (PatternKey.beq_iff.mp h'))

instance : LawfulHashable (PatternKey mix) where
  hash_eq _ _ h := congrArg mix (PatternKey.beq_iff.mp h)

end

namespace Rule

def warning (first second : String) : LogLine :=
  ⟨.warning, s!"rules `{first}` and `{second}` have identical patterns"⟩

/-- Puts the rules into a table from patterns to names one after the other, and warns
where a pattern has a name already; the new name takes its place. -/
def warningsFrom {mix : List Mark → UInt64} (seen : Std.HashMap (PatternKey mix) String) :
    List Rule → List LogLine
  | [] => []
  | rule :: rest =>
    let seen' := seen.insert ⟨rule.pattern⟩ rule.name
    match seen[(⟨rule.pattern⟩ : PatternKey mix)]? with
    | some first => warning first rule.name :: warningsFrom seen' rest
    | none => warningsFrom seen' rest

/-- The table knows the latest rule with a pattern like the one that is looked up. -/
theorem warningsFrom_eq {mix : List Mark → UInt64} {table : Std.HashMap (PatternKey mix) String}
    {seen : List Rule}
    (h : ∀ key : PatternKey mix,
      table[key]? = (seen.find? (·.pattern.alike key.pattern)).map (·.name))
    (rules : List Rule) :
    warningsFrom table rules =
      (duplicates seen rules).map fun (first, second) => warning first second := by
  induction rules generalizing table seen with
  | nil => rfl
  | cons rule rest ih =>
      have hinsert : ∀ key : PatternKey mix,
          (table.insert ⟨rule.pattern⟩ rule.name)[key]? =
            ((rule :: seen).find? (·.pattern.alike key.pattern)).map (·.name) := by
        intro key
        rw [Std.HashMap.getElem?_insert, List.find?_cons, h]
        change (if rule.pattern.alike key.pattern = true then _ else _) = _
        cases rule.pattern.alike key.pattern <;> rfl
      simp only [warningsFrom, duplicates, h, ih hinsert]
      cases seen.find? (·.pattern.alike rule.pattern) <;> rfl

theorem warningsFrom_empty (mix : List Mark → UInt64) (rules : List Rule) :
    warningsFrom (∅ : Std.HashMap (PatternKey mix) String) rules = warnings rules := by
  have hempty : ∀ key : PatternKey mix, (∅ : Std.HashMap (PatternKey mix) String)[key]? =
      (([] : List Rule).find? (·.pattern.alike key.pattern)).map (·.name) := by
    intro key
    rw [Std.HashMap.getElem?_empty]
    rfl
  exact warningsFrom_eq hempty rules

/-! ## Rules that repeat a pattern -/

def LikeAt (rules : List Rule) (rule : Rule) (i : Nat) : Prop :=
  ∃ first, rules[i]? = some first ∧ first.pattern.alike rule.pattern = true

def Repeats (rules : List Rule) (i j : Nat) : Prop :=
  i < j ∧ ∃ rule, rules[j]? = some rule ∧ LikeAt rules rule i

def NearestRepeat (rules : List Rule) (i j : Nat) : Prop :=
  Repeats rules i j ∧ ∀ k, i < k → ¬ Repeats rules k j

theorem exists_nearestRepeat {rules : List Rule} {i j : Nat} (h : Repeats rules i j) :
    ∃ k, NearestRepeat rules k j := by
  by_cases hlater : ∃ k, i < k ∧ Repeats rules k j
  · obtain ⟨k, hik, hk⟩ := hlater
    have := hk.1
    exact exists_nearestRepeat hk
  · exact ⟨i, h, fun k hik hk => hlater ⟨k, hik, hk⟩⟩
  termination_by j - i

section

variable {rules : List Rule} {rule : Rule} {i j : Nat}

theorem LikeAt.lt_length (h : LikeAt rules rule i) : i < rules.length := by
  obtain ⟨_, hfirst, _⟩ := h
  exact (List.getElem?_eq_some_iff.mp hfirst).1

theorem Repeats.lt_length (h : Repeats rules i j) : j < rules.length := by
  obtain ⟨_, _, hrule, _⟩ := h
  exact (List.getElem?_eq_some_iff.mp hrule).1

theorem likeAt_append_iff {rule' : Rule} (hi : i < rules.length) :
    LikeAt (rules ++ [rule']) rule i ↔ LikeAt rules rule i := by
  rw [LikeAt, LikeAt, List.getElem?_append_left hi]

theorem repeats_append_iff :
    Repeats (rules ++ [rule]) i j ↔
      Repeats rules i j ∨ j = rules.length ∧ LikeAt rules rule i := by
  constructor
  · rintro ⟨hij, r, hr, hlike⟩
    have hj := (List.getElem?_eq_some_iff.mp hr).1
    rw [List.length_append, List.length_singleton] at hj
    have hlike := (likeAt_append_iff (by omega)).mp hlike
    rcases Nat.lt_or_eq_of_le (Nat.le_of_lt_succ hj) with hlt | rfl
    · rw [List.getElem?_append_left hlt] at hr
      exact .inl ⟨hij, r, hr, hlike⟩
    · rw [List.getElem?_concat_length] at hr
      obtain rfl := Option.some.inj hr
      exact .inr ⟨rfl, hlike⟩
  · rintro (h | ⟨rfl, hlike⟩)
    · have hj := h.lt_length
      obtain ⟨hij, r, hr, hlike⟩ := h
      exact ⟨hij, r, by rwa [List.getElem?_append_left hj],
        (likeAt_append_iff (by omega)).mpr hlike⟩
    · exact ⟨hlike.lt_length, rule, List.getElem?_concat_length,
        (likeAt_append_iff hlike.lt_length).mpr hlike⟩

def LastLike (rules : List Rule) (rule : Rule) (i : Nat) : Prop :=
  LikeAt rules rule i ∧ ∀ k, i < k → ¬ LikeAt rules rule k

theorem LastLike.unique (hi : LastLike rules rule i) (hj : LastLike rules rule j) : i = j := by
  rcases Nat.lt_trichotomy i j with hlt | heq | hlt
  · exact absurd hj.1 (hi.2 j hlt)
  · exact heq
  · exact absurd hi.1 (hj.2 i hlt)

theorem nearestRepeat_append_iff :
    NearestRepeat (rules ++ [rule]) i j ↔
      NearestRepeat rules i j ∨ j = rules.length ∧ LastLike rules rule i := by
  by_cases hj : j = rules.length
  · subst hj
    have hnone : ∀ k, ¬ Repeats rules k rules.length := fun k h => Nat.lt_irrefl _ h.lt_length
    simp [NearestRepeat, LastLike, repeats_append_iff, hnone]
  · simp [NearestRepeat, repeats_append_iff, hj]

theorem lastLike_of_find? {first : Rule}
    (h : rules.reverse.find? (·.pattern.alike rule.pattern) = some first) :
    ∃ i, rules[i]? = some first ∧ LastLike rules rule i := by
  obtain ⟨halike, behind, front, hsplit, hbehind⟩ := List.find?_eq_some_iff_append.mp h
  have hrules : rules = front.reverse ++ first :: behind.reverse := by
    rw [← List.reverse_reverse rules, hsplit]
    simp
  have hfirst : rules[front.length]? = some first := by
    simp [hrules]
  refine ⟨front.length, hfirst, ⟨first, hfirst, halike⟩, ?_⟩
  rintro k hk ⟨r, hr, hrlike⟩
  obtain ⟨d, rfl⟩ := Nat.exists_eq_add_of_lt hk
  have hmem : r ∈ behind.reverse := by
    rw [hrules, List.getElem?_append_right (by simp; omega), List.length_reverse,
      show front.length + d + 1 - front.length = d + 1 by omega, List.getElem?_cons_succ] at hr
    exact List.mem_of_getElem? hr
  have hnot := hbehind r (List.mem_reverse.mp hmem)
  simp [hrlike] at hnot

theorem not_likeAt_of_find? (h : rules.reverse.find? (·.pattern.alike rule.pattern) = none) :
    ∀ k, ¬ LikeAt rules rule k := by
  rintro k ⟨r, hr, halike⟩
  exact List.find?_eq_none.mp h r (List.mem_reverse.mpr (List.mem_of_getElem? hr)) halike

end

/-! ## Warnings -/

theorem duplicates_append (seen rules : List Rule) (rule : Rule) :
    duplicates seen (rules ++ [rule]) = duplicates seen rules ++
      (((rules.reverse ++ seen).find? (·.pattern.alike rule.pattern)).map
        fun first => (first.name, rule.name)).toList := by
  induction rules generalizing seen with
  | nil =>
      simp only [List.nil_append, duplicates, List.reverse_nil]
      cases seen.find? (·.pattern.alike rule.pattern) <;> rfl
  | cons r rest ih =>
      simp only [List.cons_append, duplicates, ih, List.reverse_cons, List.append_assoc,
        List.nil_append]
      cases seen.find? (·.pattern.alike r.pattern) <;> rfl

theorem warnings_append (rules : List Rule) (rule : Rule) :
    warnings (rules ++ [rule]) = warnings rules ++
      ((rules.reverse.find? (·.pattern.alike rule.pattern)).map
        fun first => warning first.name rule.name).toList := by
  simp only [warnings, duplicates_append, List.map_append, List.append_nil]
  cases rules.reverse.find? (·.pattern.alike rule.pattern) <;> rfl

/-- The lines warn of the rules at the second places, in order, and name with each the
rule at the first place. -/
structure Warns (rules : List Rule) (pairs : List (Nat × Nat)) (lines : List LogLine) : Prop where
  mem_iff : ∀ i j, (i, j) ∈ pairs ↔ NearestRepeat rules i j
  ordered : pairs.Pairwise fun p q => p.2 < q.2
  told : List.Forall₂ (fun (i, j) line => ∃ first rule, rules[i]? = some first ∧
    rules[j]? = some rule ∧ line = warning first.name rule.name) pairs lines

theorem Warns.mono {rules more : List Rule} {pairs : List (Nat × Nat)} {lines : List LogLine}
    (h : Warns rules pairs lines) :
    List.Forall₂ (fun (i, j) line => ∃ first rule, (rules ++ more)[i]? = some first ∧
      (rules ++ more)[j]? = some rule ∧ line = warning first.name rule.name) pairs lines := by
  refine h.told.imp fun (i, j) line ⟨first, rule, hfirst, hrule, hline⟩ => ?_
  refine ⟨first, rule, ?_, ?_, hline⟩
  · rwa [List.getElem?_append_left (List.getElem?_eq_some_iff.mp hfirst).1]
  · rwa [List.getElem?_append_left (List.getElem?_eq_some_iff.mp hrule).1]

theorem Warns.append {rules : List Rule} {pairs : List (Nat × Nat)} {lines : List LogLine}
    (h : Warns rules pairs lines) (rule : Rule) :
    ∃ pairs', Warns (rules ++ [rule]) pairs' (lines ++
      ((rules.reverse.find? (·.pattern.alike rule.pattern)).map
        fun first => warning first.name rule.name).toList) := by
  cases hfind : rules.reverse.find? (·.pattern.alike rule.pattern) with
  | none =>
      have hnone := not_likeAt_of_find? hfind
      refine ⟨pairs, fun i j => ?_, h.ordered, by simpa using h.mono⟩
      rw [h.mem_iff, nearestRepeat_append_iff]
      simp [LastLike, hnone]
  | some first =>
      obtain ⟨n, hfirst, hlast⟩ := lastLike_of_find? hfind
      refine ⟨pairs ++ [(n, rules.length)], fun i j => ?_, ?_, ?_⟩
      · rw [List.mem_append, h.mem_iff, nearestRepeat_append_iff, List.mem_singleton,
          Prod.mk.injEq, and_comm (a := i = n)]
        refine or_congr_right (and_congr_right fun _ => ?_)
        exact ⟨fun heq => heq ▸ hlast, fun hi => hi.unique hlast⟩
      · refine List.pairwise_append.mpr ⟨h.ordered, List.pairwise_singleton _ _, ?_⟩
        intro p hp q hq
        obtain rfl := List.mem_singleton.mp hq
        exact ((h.mem_iff p.1 p.2).mp hp).1.lt_length
      · refine List.rel_append h.mono (.cons ⟨first, rule, ?_, List.getElem?_concat_length, rfl⟩
          .nil)
        rwa [List.getElem?_append_left (List.getElem?_eq_some_iff.mp hfirst).1]

theorem exists_warns (rules : List Rule) : ∃ pairs, Warns rules pairs (warnings rules) := by
  induction rules using List.reverseRecOn with
  | nil =>
      refine ⟨[], fun i j => ?_, .nil, .nil⟩
      simp [NearestRepeat, Repeats]
  | append_singleton rules rule ih =>
      obtain ⟨pairs, hpairs⟩ := ih
      rw [warnings_append]
      exact hpairs.append rule

theorem program_eq_iff_alike {rule rule' : Rule} :
    rule.matcher.program = rule'.matcher.program ↔ rule.pattern.alike rule'.pattern = true :=
  Pattern.program_eq_iff.trans Pattern.alike_iff_marks_eq.symm

theorem pairwise_program_iff {rules : List Rule} :
    (rules.Pairwise fun rule rule' => rule.matcher.program ≠ rule'.matcher.program) ↔
      ∀ i j, ¬ Repeats rules i j := by
  rw [List.pairwise_iff_getElem]
  constructor
  · rintro h i j ⟨hij, rule, hrule, first, hfirst, halike⟩
    obtain ⟨hj, rfl⟩ := List.getElem?_eq_some_iff.mp hrule
    obtain ⟨hi, rfl⟩ := List.getElem?_eq_some_iff.mp hfirst
    exact h i j hi hj hij (program_eq_iff_alike.mpr halike)
  · intro h i j hi hj hij heq
    exact h i j ⟨hij, _, List.getElem?_eq_getElem hj, _, List.getElem?_eq_getElem hi,
      program_eq_iff_alike.mp heq⟩

/-- Rules that compile are warned about once for each rule whose pattern, capture kinds
included, is like that of an earlier one.  The warning names the nearest such rule, the
table of patterns gives the same warnings with every hash, and there are none exactly if
no two rules have one program. -/
theorem warnings_of_compileAll {configs : List RuleConfig} {rules : List Rule}
    (h : compileAll configs = .ok rules) :
    List.Forall₂ Compiled configs rules ∧
      (∀ mix, warningsFrom (∅ : Std.HashMap (PatternKey mix) String) rules = warnings rules) ∧
      (∃ pairs, Warns rules pairs (warnings rules) ∧
        ∀ j, (∃ i, (i, j) ∈ pairs) ↔ ∃ i, Repeats rules i j) ∧
      (warnings rules = [] ↔
        rules.Pairwise fun rule rule' => rule.matcher.program ≠ rule'.matcher.program) := by
  obtain ⟨pairs, hpairs⟩ := exists_warns rules
  have hwarned : ∀ j, (∃ i, (i, j) ∈ pairs) ↔ ∃ i, Repeats rules i j := by
    intro j
    simp only [hpairs.mem_iff]
    exact ⟨fun ⟨i, hi⟩ => ⟨i, hi.1⟩, fun ⟨_, hi⟩ => exists_nearestRepeat hi⟩
  refine ⟨forall₂_compiled h, fun mix => warningsFrom_empty mix rules, ⟨pairs, hpairs, hwarned⟩, ?_⟩
  have hempty : warnings rules = [] ↔ pairs = [] := by
    rw [← List.length_eq_zero_iff, ← hpairs.told.length_eq, List.length_eq_zero_iff]
  rw [hempty, pairwise_program_iff, List.eq_nil_iff_forall_not_mem]
  constructor
  · intro hnone i j hij
    obtain ⟨k, hk⟩ := (hwarned j).mpr ⟨i, hij⟩
    exact hnone (k, j) hk
  · intro hnone (i, j) hij
    exact hnone i j ((hpairs.mem_iff i j).mp hij).1

/-- Three layouts of one pattern, and a hole with and without a kind. -/
theorem warnings_of_compileAll_three_layouts :
    ∃ rules, compileAll [
        { name := "one", pattern := "a  b" }, { name := "two", pattern := ":[x]" },
        { name := "three", pattern := "a\tb" },
        { name := "four", pattern := ":[x]", constraints := .ofList [("x", "identifier")] },
        { name := "five", pattern := "a b" }] = .ok rules ∧
      warnings rules = [warning "one" "three", warning "three" "five"] ∧
      ∃ pairs, Warns rules pairs (warnings rules) ∧
        ∀ j, (∃ i, (i, j) ∈ pairs) ↔ ∃ i, Repeats rules i j := by
  have hwarnings : (compileAll [
        { name := "one", pattern := "a  b" }, { name := "two", pattern := ":[x]" },
        { name := "three", pattern := "a\tb" },
        { name := "four", pattern := ":[x]", constraints := .ofList [("x", "identifier")] },
        { name := "five", pattern := "a b" }]).toOption.map warnings =
      some [warning "one" "three", warning "three" "five"] := by decide +kernel
  obtain ⟨rules, hrules, hwarnings⟩ := Option.map_eq_some_iff.mp hwarnings
  have hrules := eq_ok_of_toOption hrules
  obtain ⟨_, _, hpairs, _⟩ := warnings_of_compileAll hrules
  exact ⟨rules, hrules, hwarnings, hpairs⟩

end Rule

end Stencil
