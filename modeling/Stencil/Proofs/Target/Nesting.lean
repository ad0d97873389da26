import Stencil.Proofs.Target.Tiling

/-!
# Nesting

Before each token there is a stack of brackets still open.  A closer closes the
bracket on top, and below the top nothing changes until that bracket is closed.
The tables of partners and of scopes of an accepted target are read off these
stacks.
-/

namespace Stencil

def opened (kinds : List LexemeKind) : Nat → List (Nat × Delimiter)
  | 0 => []
  | i + 1 =>
      match kinds[i]? with
      | some (.opening d) => (i, d) :: opened kinds i
      | some (.closing _) => (opened kinds i).tail
      | _ => opened kinds i

def Closes (kinds : List LexemeKind) (opener closer : Nat) : Prop :=
  ∃ d outer, kinds[closer]? = some (.closing d) ∧ opened kinds closer = (opener, d) :: outer

/-! ## Stacks -/

section Stacks

variable {kinds : List LexemeKind}

theorem opened_succ_of_opening {i : Nat} {d : Delimiter} (h : kinds[i]? = some (.opening d)) :
    opened kinds (i + 1) = (i, d) :: opened kinds i := by
  simp [opened, h]

theorem opened_succ_of_closing {i : Nat} {d : Delimiter} (h : kinds[i]? = some (.closing d)) :
    opened kinds (i + 1) = (opened kinds i).tail := by
  simp [opened, h]

theorem opened_succ_of_other {i : Nat} (hopening : ∀ d, kinds[i]? ≠ some (.opening d))
    (hclosing : ∀ d, kinds[i]? ≠ some (.closing d)) : opened kinds (i + 1) = opened kinds i := by
  rw [opened]
  split
  · rename_i d h
    exact absurd h (hopening d)
  · rename_i d h
    exact absurd h (hclosing d)
  · rfl

theorem opening_of_mem_opened {i o : Nat} {d : Delimiter} (h : (o, d) ∈ opened kinds i) :
    o < i ∧ kinds[o]? = some (.opening d) := by
  induction i with
  | zero => simp [opened] at h
  | succ i ih =>
      simp only [opened] at h
      split at h
      · rename_i d' hkind
        rcases List.mem_cons.mp h with heq | h
        · simp only [Prod.mk.injEq] at heq
          rcases heq with ⟨rfl, rfl⟩
          exact ⟨Nat.lt_succ_self _, hkind⟩
        · exact ⟨Nat.lt_succ_of_lt (ih h).1, (ih h).2⟩
      · have h := ih (List.mem_of_mem_tail h)
        exact ⟨Nat.lt_succ_of_lt h.1, h.2⟩
      · exact ⟨Nat.lt_succ_of_lt (ih h).1, (ih h).2⟩

theorem pairwise_opened (kinds : List LexemeKind) (i : Nat) :
    (opened kinds i).Pairwise fun inner outer => outer.1 < inner.1 := by
  induction i with
  | zero => simp [opened]
  | succ i ih =>
      simp only [opened]
      split
      · rw [List.pairwise_cons]
        exact ⟨fun outer h => (opening_of_mem_opened h).1, ih⟩
      · exact ih.tail
      · exact ih

theorem Closes.unique_opener {o o' c : Nat} (h : Closes kinds o c) (h' : Closes kinds o' c) :
    o = o' := by
  obtain ⟨d, outer, _, htop⟩ := h
  obtain ⟨d', outer', _, htop'⟩ := h'
  rw [htop] at htop'
  simp only [List.cons.injEq, Prod.mk.injEq] at htop'
  exact htop'.1.1

theorem Closes.exists_mem {o c : Nat} (h : Closes kinds o c) : ∃ d, (o, d) ∈ opened kinds c := by
  obtain ⟨d, outer, _, htop⟩ := h
  exact ⟨d, by simp [htop]⟩

theorem Closes.lt {o c : Nat} (h : Closes kinds o c) : o < c := by
  obtain ⟨d, hmem⟩ := h.exists_mem
  exact (opening_of_mem_opened hmem).1

theorem Closes.opening {o c : Nat} (h : Closes kinds o c) : ∃ d, kinds[o]? = some (.opening d) := by
  obtain ⟨d, hmem⟩ := h.exists_mem
  exact ⟨d, (opening_of_mem_opened hmem).2⟩

theorem Closes.not_mem_opened {o c k : Nat} {d : Delimiter} (h : Closes kinds o c)
    (hk : c < k) : (o, d) ∉ opened kinds k := by
  have hoc := h.lt
  obtain ⟨d', outer, hclosing, htop⟩ := h
  have hpairwise := pairwise_opened kinds c
  rw [htop, List.pairwise_cons] at hpairwise
  induction k with
  | zero => omega
  | succ k ih =>
      rcases Nat.eq_or_lt_of_le (Nat.le_of_lt_succ hk) with rfl | hlt
      · rw [opened_succ_of_closing hclosing, htop]
        intro hmem
        exact Nat.lt_irrefl o (hpairwise.1 _ hmem)
      · intro hmem
        apply ih hlt
        simp only [opened] at hmem
        split at hmem
        · rcases List.mem_cons.mp hmem with heq | hmem
          · simp only [Prod.mk.injEq] at heq
            omega
          · exact hmem
        · exact List.mem_of_mem_tail hmem
        · exact hmem

theorem Closes.unique_closer {o c c' : Nat} (h : Closes kinds o c) (h' : Closes kinds o c') :
    c = c' := by
  obtain ⟨d, hmem⟩ := h.exists_mem
  obtain ⟨d', hmem'⟩ := h'.exists_mem
  rcases Nat.lt_trichotomy c c' with hlt | rfl | hlt
  · exact absurd hmem' (h.not_mem_opened hlt)
  · rfl
  · exact absurd hmem (h'.not_mem_opened hlt)

end Stacks

/-! ## Accepted brackets -/

section Accepted

variable {kinds : List LexemeKind} {pairs : List (Nat × Nat)}

/-- Checking the brackets from token `i` on goes on with the stack before it. -/
theorem bracketPairs_drop (h : bracketPairs 0 [] kinds = .ok pairs) {i : Nat}
    (hi : i ≤ kinds.length) :
    ∃ later, bracketPairs i (opened kinds i) (kinds.drop i) = .ok later ∧ later <:+ pairs := by
  induction i with
  | zero => exact ⟨pairs, by simpa [opened] using h, List.suffix_refl _⟩
  | succ i ih =>
      obtain ⟨later, hlater, hsuffix⟩ := ih (by omega)
      rw [List.drop_eq_getElem_cons (by omega)] at hlater
      have hget : kinds[i]? = some kinds[i] := List.getElem?_eq_getElem (by omega)
      cases hkind : kinds[i] with
      | opening d =>
          rw [hkind] at hlater hget
          rw [opened_succ_of_opening hget]
          exact ⟨later, by simpa [bracketPairs] using hlater, hsuffix⟩
      | closing d =>
          rw [hkind] at hlater hget
          rw [opened_succ_of_closing hget]
          simp only [bracketPairs] at hlater
          split at hlater
          · simp at hlater
          · rename_i opener d' outer htop
            split at hlater
            · cases hrest : bracketPairs (i + 1) outer (kinds.drop (i + 1)) with
              | error e => simp [hrest, Except.map] at hlater
              | ok rest =>
                  simp only [hrest, Except.map, Except.ok.injEq] at hlater
                  subst hlater
                  rw [htop]
                  exact ⟨rest, hrest, (List.suffix_cons _ _).trans hsuffix⟩
            · simp at hlater
      | blank | word | literal | comment | punct =>
          rw [hkind] at hlater hget
          rw [opened_succ_of_other (by simp [hget]) (by simp [hget])]
          exact ⟨later, by simpa [bracketPairs] using hlater, hsuffix⟩

theorem opened_length (h : bracketPairs 0 [] kinds = .ok pairs) :
    opened kinds kinds.length = [] := by
  obtain ⟨later, hlater, _⟩ := bracketPairs_drop h (Nat.le_refl _)
  rw [List.drop_length] at hlater
  cases hopened : opened kinds kinds.length with
  | nil => rfl
  | cons top outer => simp [hopened, bracketPairs] at hlater

theorem opened_of_length_le (h : bracketPairs 0 [] kinds = .ok pairs) {i : Nat}
    (hi : kinds.length ≤ i) : opened kinds i = [] := by
  induction hi with
  | refl => exact opened_length h
  | @step i hi ih =>
      have hnone : kinds[i]? = none := List.getElem?_eq_none hi
      rw [opened_succ_of_other (by simp [hnone]) (by simp [hnone]), ih]

theorem closes_of_closing (h : bracketPairs 0 [] kinds = .ok pairs) {c : Nat} {d : Delimiter}
    (hc : kinds[c]? = some (.closing d)) : ∃ o, Closes kinds o c ∧ (o, c) ∈ pairs := by
  have hlt : c < kinds.length := (List.getElem?_eq_some_iff.mp hc).1
  have hget : kinds[c] = .closing d := (List.getElem?_eq_some_iff.mp hc).2
  obtain ⟨later, hlater, hsuffix⟩ := bracketPairs_drop h (Nat.le_of_lt hlt)
  rw [List.drop_eq_getElem_cons hlt, hget] at hlater
  simp only [bracketPairs] at hlater
  split at hlater
  · simp at hlater
  · rename_i opener d' outer htop
    split at hlater
    · rename_i hd
      subst hd
      cases hrest : bracketPairs (c + 1) outer (kinds.drop (c + 1)) with
      | error e => simp [hrest, Except.map] at hlater
      | ok rest =>
          simp only [hrest, Except.map, Except.ok.injEq] at hlater
          subst hlater
          exact ⟨opener, ⟨d', outer, hc, htop⟩, hsuffix.subset (by simp)⟩
    · simp at hlater

private theorem closes_of_mem_bracketPairs {i : Nat} (hi : i ≤ kinds.length)
    {later : List (Nat × Nat)}
    (h : bracketPairs i (opened kinds i) (kinds.drop i) = .ok later) :
    (∀ pair ∈ later, i ≤ pair.2 ∧ Closes kinds pair.1 pair.2) ∧
      later.Pairwise fun first second => first.2 < second.2 := by
  -- On the tokens that are left; the stack they are read with is what is open before them.
  induction hn : kinds.length - i generalizing i later with
  | zero =>
      rw [List.drop_eq_nil_of_le (by omega)] at h
      cases hopened : opened kinds i with
      | nil =>
          simp only [hopened, bracketPairs, Except.ok.injEq] at h
          subst h
          simp
      | cons top outer => simp [hopened, bracketPairs] at h
  | succ n ih =>
      rw [List.drop_eq_getElem_cons (by omega)] at h
      have hget : kinds[i]? = some kinds[i] := List.getElem?_eq_getElem (by omega)
      have weaken : ∀ later' : List (Nat × Nat),
          (∀ pair ∈ later', i + 1 ≤ pair.2 ∧ Closes kinds pair.1 pair.2) →
          ∀ pair ∈ later', i ≤ pair.2 ∧ Closes kinds pair.1 pair.2 := by
        intro later' hlater' pair hpair
        exact ⟨by have := (hlater' pair hpair).1; omega, (hlater' pair hpair).2⟩
      cases hkind : kinds[i] with
      | opening d =>
          rw [hkind] at h hget
          simp only [bracketPairs, ← opened_succ_of_opening hget] at h
          obtain ⟨hcloses, hpairwise⟩ := ih (by omega) h (by omega)
          exact ⟨weaken _ hcloses, hpairwise⟩
      | closing d =>
          rw [hkind] at h hget
          simp only [bracketPairs] at h
          split at h
          · simp at h
          · rename_i opener d' outer htop
            split at h
            · rename_i hd
              subst hd
              cases hrest : bracketPairs (i + 1) outer (kinds.drop (i + 1)) with
              | error e => simp [hrest, Except.map] at h
              | ok rest =>
                  simp only [hrest, Except.map, Except.ok.injEq] at h
                  subst h
                  have houter : outer = opened kinds (i + 1) := by
                    rw [opened_succ_of_closing hget, htop, List.tail_cons]
                  rw [houter] at hrest
                  obtain ⟨hcloses, hpairwise⟩ := ih (by omega) hrest (by omega)
                  refine ⟨?_, ?_⟩
                  · intro pair hpair
                    rcases List.mem_cons.mp hpair with rfl | hpair
                    · exact ⟨Nat.le_refl _, d', outer, hget, htop⟩
                    · exact weaken _ hcloses pair hpair
                  · rw [List.pairwise_cons]
                    exact ⟨fun pair hpair => (hcloses pair hpair).1, hpairwise⟩
            · simp at h
      | blank | word | literal | comment | punct =>
          rw [hkind] at h hget
          have hsame : opened kinds (i + 1) = opened kinds i :=
            opened_succ_of_other (by simp [hget]) (by simp [hget])
          simp only [bracketPairs, ← hsame] at h
          obtain ⟨hcloses, hpairwise⟩ := ih (by omega) h (by omega)
          exact ⟨weaken _ hcloses, hpairwise⟩

theorem closes_of_mem_pairs (h : bracketPairs 0 [] kinds = .ok pairs) {o c : Nat}
    (hpair : (o, c) ∈ pairs) : Closes kinds o c :=
  ((closes_of_mem_bracketPairs (Nat.zero_le _) (by simpa [opened] using h)).1 _ hpair).2

theorem pairwise_pairs (h : bracketPairs 0 [] kinds = .ok pairs) :
    pairs.Pairwise fun first second => first.2 < second.2 :=
  (closes_of_mem_bracketPairs (Nat.zero_le _) (by simpa [opened] using h)).2

theorem exists_closer (h : bracketPairs 0 [] kinds = .ok pairs) {i o : Nat} {d : Delimiter}
    {inner outer : List (Nat × Delimiter)} (hi : i ≤ kinds.length)
    (hopened : opened kinds i = inner ++ (o, d) :: outer) :
    ∃ c, i ≤ c ∧ kinds[c]? = some (.closing d) ∧ opened kinds c = (o, d) :: outer ∧
      ∀ k, i ≤ k → k ≤ c → (o, d) :: outer <:+ opened kinds k := by
  -- On the tokens that are left.  What is open above the bracket changes by one at each of
  -- them, and the bracket is closed where nothing is left above it.
  induction hn : kinds.length - i generalizing i inner with
  | zero =>
      have hnil := opened_length h
      rw [show kinds.length = i by omega, hopened] at hnil
      simp at hnil
  | succ n ih =>
      have hget : kinds[i]? = some kinds[i] := List.getElem?_eq_getElem (by omega)
      have goOn : ∀ inner', opened kinds (i + 1) = inner' ++ (o, d) :: outer →
          ∃ c, i ≤ c ∧ kinds[c]? = some (.closing d) ∧ opened kinds c = (o, d) :: outer ∧
            ∀ k, i ≤ k → k ≤ c → (o, d) :: outer <:+ opened kinds k := by
        intro inner' hnext
        obtain ⟨c, hic, hc, htop, hstays⟩ := ih (by omega) hnext (by omega)
        refine ⟨c, by omega, hc, htop, ?_⟩
        intro k hik hkc
        rcases Nat.eq_or_lt_of_le hik with rfl | hlt
        · exact ⟨inner, hopened.symm⟩
        · exact hstays k hlt hkc
      cases hkind : kinds[i] with
      | opening d' =>
          rw [hkind] at hget
          apply goOn ((i, d') :: inner)
          rw [opened_succ_of_opening hget, hopened, List.cons_append]
      | closing d' =>
          rw [hkind] at hget
          cases inner with
          | nil =>
              obtain ⟨o', ⟨d'', outer', hc, htop⟩, _⟩ := closes_of_closing h hget
              rw [List.nil_append] at hopened
              rw [hopened] at htop
              simp only [List.cons.injEq, Prod.mk.injEq] at htop
              rcases htop with ⟨⟨rfl, rfl⟩, rfl⟩
              refine ⟨i, Nat.le_refl _, hc, hopened, ?_⟩
              intro k hik hki
              obtain rfl : k = i := by omega
              exact hopened ▸ List.suffix_refl _
          | cons top inner =>
              apply goOn inner
              rw [opened_succ_of_closing hget, hopened, List.cons_append, List.tail_cons]
      | blank | word | literal | comment | punct =>
          rw [hkind] at hget
          apply goOn inner
          rw [opened_succ_of_other (by simp [hget]) (by simp [hget]), hopened]

theorem closes_of_opening (h : bracketPairs 0 [] kinds = .ok pairs) {o : Nat} {d : Delimiter}
    (ho : kinds[o]? = some (.opening d)) :
    ∃ c, o < c ∧ kinds[c]? = some (.closing d) ∧ opened kinds c = (o, d) :: opened kinds o ∧
      ∀ k, o < k → k ≤ c → (o, d) :: opened kinds o <:+ opened kinds k := by
  have hlt : o < kinds.length := (List.getElem?_eq_some_iff.mp ho).1
  have hopened : opened kinds (o + 1) = [] ++ (o, d) :: opened kinds o :=
    opened_succ_of_opening ho
  obtain ⟨c, hoc, hc, htop, hstays⟩ := exists_closer h hlt hopened
  exact ⟨c, hoc, hc, htop, hstays⟩

end Accepted

/-! ## Stretches -/

/-- Tokens `i` to `j` close nothing that is open before them, and leave nothing
open. -/
def Balanced (kinds : List LexemeKind) (i j : Nat) : Prop :=
  opened kinds j = opened kinds i ∧ ∀ k, i ≤ k → k ≤ j → opened kinds i <:+ opened kinds k

section Stretches

variable {kinds : List LexemeKind} {i j k : Nat}

theorem Balanced.refl (kinds : List LexemeKind) (i : Nat) : Balanced kinds i i := by
  refine ⟨rfl, fun k hik hki => ?_⟩
  obtain rfl : k = i := by omega
  exact List.suffix_refl _

theorem Balanced.trans (hij : Balanced kinds i j) (hjk : Balanced kinds j k) :
    Balanced kinds i k := by
  refine ⟨hjk.1.trans hij.1, fun n hin hnk => ?_⟩
  rcases Nat.le_total n j with hnj | hjn
  · exact hij.2 n hin hnj
  · exact hij.1 ▸ hjk.2 n hjn hnk

/-- The stack inside the stretch, on top of what is open before it, has the shapes
of the whole stack. -/
private theorem bracketPairs_of_stack
    (hclosing : ∀ c d, kinds[c]? = some (.closing d) → ∃ o, Closes kinds o c)
    (hbalanced : Balanced kinds i j) (hlength : j ≤ kinds.length) (hik : i ≤ k) (hkj : k ≤ j)
    (index : Nat) {stack : List (Nat × Delimiter)}
    (hstack : stack.map (·.2) ++ (opened kinds i).map (·.2) = (opened kinds k).map (·.2)) :
    ∃ pairs, bracketPairs index stack ((kinds.drop k).take (j - k)) = .ok pairs := by
  induction hn : j - k generalizing k index stack with
  | zero =>
      obtain rfl : k = j := by omega
      have hnil : stack = [] := by
        rw [hbalanced.1] at hstack
        simpa using hstack
      subst hnil
      exact ⟨[], by simp [bracketPairs]⟩
  | succ n ih =>
      have hget : kinds[k]? = some kinds[k] := List.getElem?_eq_getElem (by omega)
      have hstays := hbalanced.2 (k + 1) (by omega) (by omega)
      rw [List.drop_eq_getElem_cons (by omega), List.take_succ_cons]
      cases hkind : kinds[k] with
      | opening d =>
          rw [hkind] at hget
          rw [bracketPairs]
          refine ih (by omega) (by omega) _ ?_ (by omega)
          rw [opened_succ_of_opening hget, List.map_cons, List.map_cons, List.cons_append, hstack]
      | closing d =>
          rw [hkind] at hget
          obtain ⟨o, d', outer, hclose, htop⟩ := hclosing k d hget
          obtain rfl : d = d' := by simpa [hget] using hclose
          rw [opened_succ_of_closing hget, htop, List.tail_cons] at hstays
          rw [htop, List.map_cons] at hstack
          cases stack with
          | nil =>
              -- Only a bracket that is open before the stretch could be closed here.
              have hlong := congrArg List.length hstack
              have hshort := hstays.length_le
              simp only [List.map_nil, List.nil_append, List.length_cons, List.length_map] at hlong
              omega
          | cons top stack =>
              obtain ⟨o', d'⟩ := top
              simp only [List.map_cons, List.cons_append, List.cons.injEq] at hstack
              obtain ⟨rfl, hstack⟩ := hstack
              have hnext : stack.map (·.2) ++ (opened kinds i).map (·.2) =
                  (opened kinds (k + 1)).map (·.2) := by
                rw [opened_succ_of_closing hget, htop, List.tail_cons, hstack]
              obtain ⟨pairs, hpairs⟩ := ih (by omega) (by omega) (index + 1) hnext (by omega)
              exact ⟨(o', index) :: pairs, by simp [bracketPairs, hpairs, Except.map]⟩
      | blank | word | literal | comment | punct =>
          rw [hkind] at hget
          rw [bracketPairs]
          · refine ih (by omega) (by omega) _ ?_ (by omega)
            rw [opened_succ_of_other (by simp [hget]) (by simp [hget]), hstack]
          all_goals simp

theorem Balanced.bracketPairs (hbalanced : Balanced kinds i j)
    (hclosing : ∀ c d, kinds[c]? = some (.closing d) → ∃ o, Closes kinds o c) (hij : i ≤ j)
    (hlength : j ≤ kinds.length) :
    ∃ pairs, bracketPairs 0 [] ((kinds.drop i).take (j - i)) = .ok pairs :=
  bracketPairs_of_stack hclosing hbalanced hlength (Nat.le_refl i) hij 0 rfl

end Stretches

end Stencil
