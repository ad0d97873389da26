import Stencil.Proofs.Target.Nesting

/-!
# Partners and scopes

In an accepted target the partner of a bracket is the one it is matched with,
and the scope of a token ends at the closer of the innermost bracket open before
it.  Scopes nest: one that starts inside a group ends inside it.
-/

namespace Stencil

/-! ## The table of partners -/

section Partners

variable {kinds : List LexemeKind} {pairs : List (Nat × Nat)}

private theorem getD_setIfInBounds (table : Array Nat) {i : Nat} (x : Nat)
    (hi : i < table.size) : (table.setIfInBounds i x).getD i 0 = x := by
  simp [hi]

private theorem getD_setIfInBounds_ne (table : Array Nat) {i j : Nat} (x : Nat) (hij : i ≠ j) :
    (table.setIfInBounds i x).getD j 0 = table.getD j 0 := by
  simp [Array.getElem?_setIfInBounds_ne hij]

private def setPair (table : Array Nat) (pair : Nat × Nat) : Array Nat :=
  (table.setIfInBounds pair.1 pair.2).setIfInBounds pair.2 pair.1

private theorem size_foldl_setPair (ps : List (Nat × Nat)) (table : Array Nat) :
    (ps.foldl setPair table).size = table.size := by
  induction ps generalizing table with
  | nil => rfl
  | cons pair ps ih => simp [ih, setPair]

theorem size_partnerTable (count : Nat) (pairs : List (Nat × Nat)) :
    (partnerTable count pairs).size = count :=
  (size_foldl_setPair pairs _).trans Array.size_replicate

private theorem getD_foldl_setPair (ps : List (Nat × Nat)) (table : Array Nat) {i : Nat}
    (hi : ∀ pair ∈ ps, pair.1 ≠ i ∧ pair.2 ≠ i) :
    (ps.foldl setPair table).getD i 0 = table.getD i 0 := by
  induction ps generalizing table with
  | nil => rfl
  | cons pair ps ih =>
      have hpair := hi pair (by simp)
      rw [List.foldl_cons, ih _ fun pair' h => hi pair' (by simp [h]), setPair,
        getD_setIfInBounds_ne _ _ hpair.2, getD_setIfInBounds_ne _ _ hpair.1]

theorem partnerTable_of_closes (h : bracketPairs 0 [] kinds = .ok pairs) {o c : Nat}
    (hoc : Closes kinds o c) :
    (partnerTable kinds.length pairs).getD o 0 = c ∧
      (partnerTable kinds.length pairs).getD c 0 = o := by
  have hlt := hoc.lt
  obtain ⟨d, outer, hc, _⟩ := id hoc
  have hclt : c < kinds.length := (List.getElem?_eq_some_iff.mp hc).1
  obtain ⟨o', ho', hmem⟩ := closes_of_closing h hc
  obtain rfl := ho'.unique_opener hoc
  obtain ⟨before, after, rfl⟩ := List.append_of_mem hmem
  have hpairwise := (List.pairwise_append.mp (pairwise_pairs h)).2.1
  rw [List.pairwise_cons] at hpairwise
  have hafter : ∀ pair ∈ after, (pair.1 ≠ o' ∧ pair.2 ≠ o') ∧ pair.1 ≠ c ∧ pair.2 ≠ c := by
    intro pair hpair
    have hlater := hpairwise.1 pair hpair
    have hcloses : Closes kinds pair.1 pair.2 := closes_of_mem_pairs h (by simp [hpair])
    obtain ⟨d', hopening⟩ := hcloses.opening
    refine ⟨⟨?_, by omega⟩, ?_, by omega⟩
    · intro heq
      rw [heq] at hcloses
      have := hcloses.unique_closer hoc
      omega
    · intro heq
      rw [heq, hc] at hopening
      simp at hopening
  have htable : partnerTable kinds.length (before ++ (o', c) :: after) =
      after.foldl setPair
        (setPair (before.foldl setPair (Array.replicate kinds.length 0)) (o', c)) := by
    rw [← List.foldl_cons, ← List.foldl_append]
    rfl
  rw [htable, getD_foldl_setPair _ _ fun pair hpair => (hafter pair hpair).1,
    getD_foldl_setPair _ _ fun pair hpair => (hafter pair hpair).2, setPair]
  constructor
  · rw [getD_setIfInBounds_ne _ _ (by omega), getD_setIfInBounds]
    rw [size_foldl_setPair, Array.size_replicate]
    omega
  · rw [getD_setIfInBounds]
    rw [Array.size_setIfInBounds, size_foldl_setPair, Array.size_replicate]
    omega

end Partners

/-! ## The table of scopes -/

def innermost (kinds : List LexemeKind) (partner : Nat → Nat) (i : Nat) : Nat :=
  ((opened kinds i).map fun top => partner top.1).headD kinds.length

private theorem getElem?_scopeEnds {kinds : List LexemeKind} {partner : Nat → Nat}
    (hpartner : ∀ o c, Closes kinds o c → partner o = c)
    (hclosing : ∀ c d, kinds[c]? = some (.closing d) → ∃ o, Closes kinds o c) {i k : Nat}
    (hi : i ≤ kinds.length) (hik : i ≤ k) (hk : k < kinds.length) :
    (scopeEnds kinds.length partner i ((opened kinds i).map fun top => partner top.1)
      (kinds.drop i))[k - i]? = some (innermost kinds partner k) := by
  induction hn : kinds.length - i generalizing i with
  | zero => omega
  | succ n ih =>
      rw [List.drop_eq_getElem_cons (by omega)]
      have hget : kinds[i]? = some kinds[i] := List.getElem?_eq_getElem (by omega)
      have goOn : i < k →
          (scopeEnds kinds.length partner (i + 1)
            ((opened kinds (i + 1)).map fun top => partner top.1)
            (kinds.drop (i + 1)))[k - (i + 1)]? = some (innermost kinds partner k) :=
        fun hlt => ih (by omega) hlt (by omega)
      rcases Nat.eq_or_lt_of_le hik with rfl | hlt
      · -- The first entry is that of token `i` itself.
        rw [Nat.sub_self]
        cases hkind : kinds[i] with
        | closing d =>
            rw [hkind] at hget
            obtain ⟨o, hoc⟩ := hclosing i d hget
            obtain ⟨d', outer, _, htop⟩ := id hoc
            simp [scopeEnds, innermost, htop, hpartner o i hoc]
        | opening _ | blank | word | literal | comment | punct => simp [scopeEnds, innermost]
      · have hnext := goOn hlt
        rw [show k - i = (k - (i + 1)) + 1 by omega]
        cases hkind : kinds[i] with
        | opening d =>
            rw [hkind] at hget
            rw [opened_succ_of_opening hget] at hnext
            simpa [scopeEnds] using hnext
        | closing d =>
            rw [hkind] at hget
            rw [opened_succ_of_closing hget, List.map_tail] at hnext
            simpa [scopeEnds] using hnext
        | blank | word | literal | comment | punct =>
            rw [hkind] at hget
            rw [opened_succ_of_other (by simp [hget]) (by simp [hget])] at hnext
            simpa [scopeEnds] using hnext

private theorem length_scopeEnds (count : Nat) (partner : Nat → Nat) (i : Nat)
    (enclosing : List Nat) (kinds : List LexemeKind) :
    (scopeEnds count partner i enclosing kinds).length = kinds.length := by
  induction kinds generalizing i enclosing with
  | nil => rfl
  | cons kind kinds ih => cases kind <;> simp [scopeEnds, ih]

namespace Target

/-! ## Accepted targets -/

def kinds (t : Target) : List LexemeKind := t.lexemes.toList.map (·.kind)

@[simp] theorem length_kinds (t : Target) : t.kinds.length = t.size := by simp [kinds, size]

theorem kind?_eq (t : Target) (i : Nat) : t.kind? i = t.kinds[i]? := by simp [kind?, kinds]

theorem isOpening_iff {t : Target} {i : Nat} :
    t.isOpening i = true ↔ ∃ d, t.kind? i = some (.opening d) := by
  unfold isOpening
  split
  · simp_all
  · simp_all

theorem size_partners_of_ofTokens? {source : String} {tokens : List Token} {t : Target}
    (h : ofTokens? source tokens = .ok t) : t.partners.size = t.size := by
  obtain ⟨ls, _, _, hls⟩ := exists_lexemes_of_ofTokens? h
  obtain ⟨pairs, _, rfl⟩ := ofLexemes?_eq_ok hls
  simp [size, size_partnerTable]

/-- The brackets of a target nest, and its tables tell how. -/
structure Nested (t : Target) : Prop where
  opened_partner : ∀ {o d}, t.kind? o = some (.opening d) →
    t.kind? (t.partner o) = some (.closing d) ∧
      opened t.kinds (t.partner o) = (o, d) :: opened t.kinds o ∧
      ∀ k, o < k → k ≤ t.partner o → (o, d) :: opened t.kinds o <:+ opened t.kinds k
  partner_closer : ∀ {c d}, t.kind? c = some (.closing d) → Closes t.kinds (t.partner c) c
  partner_opener : ∀ {o c}, Closes t.kinds o c → t.partner o = c
  opened_size : opened t.kinds t.size = []
  scopeEnd_eq : ∀ i, t.scopeEnd i = innermost t.kinds t.partner i

theorem nested_of_ofTokens? {source : String} {tokens : List Token} {t : Target}
    (h : ofTokens? source tokens = .ok t) : t.Nested := by
  obtain ⟨ls, _, _, hls⟩ := exists_lexemes_of_ofTokens? h
  obtain ⟨pairs, hpairs, rfl⟩ := ofLexemes?_eq_ok hls
  generalize hkinds : ls.map (·.kind) = kinds at hpairs
  have hlength : ls.length = kinds.length := by simp [← hkinds]
  have hpartner : ∀ {o c}, Closes kinds o c →
      (partnerTable ls.length pairs).getD o 0 = c ∧
        (partnerTable ls.length pairs).getD c 0 = o := by
    intro o c hoc
    rw [hlength]
    exact partnerTable_of_closes hpairs hoc
  have hclosing : ∀ c d, kinds[c]? = some (.closing d) → ∃ o, Closes kinds o c := by
    intro c d hc
    obtain ⟨o, hoc, _⟩ := closes_of_closing hpairs hc
    exact ⟨o, hoc⟩
  constructor
  case opened_partner =>
    intro o d ho
    rw [kind?_eq] at ho
    simp only [Target.kinds, hkinds] at ho ⊢
    obtain ⟨c, hlt, hc, htop, hstays⟩ := closes_of_opening hpairs ho
    have hoc : Closes kinds o c := ⟨d, _, hc, htop⟩
    simp only [partner, (hpartner hoc).1, kind?_eq, Target.kinds, hkinds]
    exact ⟨hc, htop, hstays⟩
  case partner_closer =>
    intro c d hc
    rw [kind?_eq] at hc
    simp only [Target.kinds, hkinds] at hc ⊢
    obtain ⟨o, hoc⟩ := hclosing c d hc
    simp only [partner, (hpartner hoc).2]
    exact hoc
  case partner_opener =>
    intro o c hoc
    simp only [Target.kinds, hkinds] at hoc
    exact (hpartner hoc).1
  case opened_size =>
    simp only [Target.kinds, hkinds, size, List.size_toArray, hlength]
    exact opened_length hpairs
  case scopeEnd_eq =>
    intro i
    simp only [Target.kinds, hkinds]
    have hopened : opened kinds 0 = [] := rfl
    by_cases hi : i < kinds.length
    · have hentry := getElem?_scopeEnds (fun o c hoc => (hpartner hoc).1) hclosing
        (Nat.zero_le _) (Nat.zero_le i) hi
      rw [hopened, List.map_nil, List.drop_zero, Nat.sub_zero] at hentry
      simp only [scopeEnd, hlength] at hentry ⊢
      rw [Array.getD_eq_getD_getElem?, List.getElem?_toArray, hentry]
      rfl
    · have hnone : (scopeEnds kinds.length (fun i => (partnerTable kinds.length pairs).getD i 0) 0
          [] kinds)[i]? = none :=
        List.getElem?_eq_none (by rw [length_scopeEnds]; omega)
      simp only [scopeEnd, size, List.size_toArray, hlength, innermost]
      rw [Array.getD_eq_getD_getElem?, List.getElem?_toArray, hnone,
        opened_of_length_le hpairs (by omega)]
      rfl

namespace Nested

variable {t : Target} {i o : Nat} {d : Delimiter}

theorem kind?_partner (h : t.Nested) (ho : t.kind? o = some (.opening d)) :
    t.kind? (t.partner o) = some (.closing d) :=
  (h.opened_partner ho).1

theorem closes_partner (h : t.Nested) (ho : t.kind? o = some (.opening d)) :
    Closes t.kinds o (t.partner o) :=
  ⟨d, _, by rw [← kind?_eq, h.kind?_partner ho], (h.opened_partner ho).2.1⟩

theorem lt_partner (h : t.Nested) (ho : t.kind? o = some (.opening d)) : o < t.partner o :=
  (h.closes_partner ho).lt

theorem partner_lt_size (h : t.Nested) (ho : t.kind? o = some (.opening d)) :
    t.partner o < t.size :=
  kind?_lt (h.kind?_partner ho)

theorem after_opening (h : t.Nested) (ho : t.kind? o = some (.opening d)) :
    t.after o = t.partner o + 1 := by
  have := h.lt_partner ho
  simp only [after, isOpening, ho, if_true]
  omega

theorem after_other (hopening : ∀ d, t.kind? i ≠ some (.opening d)) : t.after i = i + 1 := by
  have hfalse : t.isOpening i = false := by simp only [isOpening]
  simp [after, hfalse]

theorem scopeEnd_of_nil (h : t.Nested) (hnil : opened t.kinds i = []) : t.scopeEnd i = t.size := by
  simp [h.scopeEnd_eq, innermost, hnil]

theorem scopeEnd_of_cons (h : t.Nested) {outer : List (Nat × Delimiter)}
    (hcons : opened t.kinds i = (o, d) :: outer) : t.scopeEnd i = t.partner o := by
  simp [h.scopeEnd_eq, innermost, hcons]

theorem scopeEnd_congr (h : t.Nested) {j : Nat} (heq : opened t.kinds i = opened t.kinds j) :
    t.scopeEnd i = t.scopeEnd j := by
  rw [h.scopeEnd_eq, h.scopeEnd_eq, innermost, innermost, heq]

theorem le_partner_of_mem (h : t.Nested) (hmem : (o, d) ∈ opened t.kinds i) :
    i ≤ t.partner o := by
  have ho := (opening_of_mem_opened hmem).2
  rw [← kind?_eq] at ho
  refine Nat.le_of_not_lt fun hlt => ?_
  exact (h.closes_partner ho).not_mem_opened hlt hmem

theorem scopeEnd_closing (h : t.Nested) (hi : t.kind? i = some (.closing d)) :
    t.scopeEnd i = i := by
  have hcloses := h.partner_closer hi
  obtain ⟨d', outer, _, htop⟩ := id hcloses
  rw [h.scopeEnd_of_cons htop, h.partner_opener hcloses]

theorem scopeEnd_le_size (h : t.Nested) (i : Nat) : t.scopeEnd i ≤ t.size := by
  cases hopened : opened t.kinds i with
  | nil => exact Nat.le_of_eq (h.scopeEnd_of_nil hopened)
  | cons top outer =>
      have htop := (opening_of_mem_opened (by rw [hopened]; exact List.mem_cons_self)).2
      rw [← kind?_eq] at htop
      rw [h.scopeEnd_of_cons hopened]
      exact Nat.le_of_lt (h.partner_lt_size htop)

theorem le_scopeEnd (h : t.Nested) (hi : i ≤ t.size) : i ≤ t.scopeEnd i := by
  cases hopened : opened t.kinds i with
  | nil => exact Nat.le_trans hi (Nat.le_of_eq (h.scopeEnd_of_nil hopened).symm)
  | cons top outer =>
      rw [h.scopeEnd_of_cons hopened]
      exact h.le_partner_of_mem (by rw [hopened]; exact List.mem_cons_self)

theorem lt_scopeEnd (h : t.Nested) (hi : i < t.size)
    (hclosing : ∀ d, t.kind? i ≠ some (.closing d)) : i < t.scopeEnd i := by
  refine Nat.lt_of_le_of_ne (h.le_scopeEnd (Nat.le_of_lt hi)) fun heq => ?_
  cases hopened : opened t.kinds i with
  | nil =>
      rw [h.scopeEnd_of_nil hopened] at heq
      omega
  | cons top outer =>
      have htop := (opening_of_mem_opened (by rw [hopened]; exact List.mem_cons_self)).2
      rw [← kind?_eq] at htop
      have hcloser := h.kind?_partner htop
      rw [← h.scopeEnd_of_cons hopened, ← heq] at hcloser
      exact hclosing _ hcloser

theorem scopeEnd_le_partner (h : t.Nested) (ho : t.kind? o = some (.opening d)) (hoi : o < i)
    (hi : i ≤ t.partner o) : t.scopeEnd i ≤ t.partner o := by
  obtain ⟨_, htop, hstays⟩ := h.opened_partner ho
  obtain ⟨inner, hopened⟩ := hstays i hoi hi
  cases inner with
  | nil => exact Nat.le_of_eq (h.scopeEnd_of_cons hopened.symm)
  | cons top inner =>
      have hmem : top ∈ opened t.kinds i := by rw [← hopened]; exact List.mem_cons_self
      obtain ⟨hlt, hkind⟩ := opening_of_mem_opened hmem
      rw [← kind?_eq] at hkind
      rw [h.scopeEnd_of_cons hopened.symm]
      refine Nat.le_of_not_lt fun hlater => ?_
      -- The inner bracket would be open where the outer one is closed.
      have hopen := ((h.opened_partner hkind).2.2 _ (by omega) (Nat.le_of_lt hlater)).subset
        List.mem_cons_self
      have hpairwise := pairwise_opened t.kinds i
      rw [← hopened, List.cons_append, List.pairwise_cons] at hpairwise
      have hinner := hpairwise.1 (o, d) (by simp)
      rw [htop] at hopen
      rcases List.mem_cons.mp hopen with heq | hmem
      · simp only [Prod.mk.injEq] at heq
        omega
      · have := (opening_of_mem_opened hmem).1
        omega

theorem scopeEnd_after (h : t.Nested) (hclosing : ∀ d, t.kind? i ≠ some (.closing d)) :
    t.scopeEnd (t.after i) = t.scopeEnd i := by
  apply h.scopeEnd_congr
  by_cases hopening : ∃ d, t.kind? i = some (.opening d)
  · obtain ⟨d, ho⟩ := hopening
    obtain ⟨hcloser, htop, _⟩ := h.opened_partner ho
    rw [kind?_eq] at hcloser
    rw [h.after_opening ho, opened_succ_of_closing hcloser, htop, List.tail_cons]
  · have hother : ∀ d, t.kind? i ≠ some (.opening d) := fun d ho => hopening ⟨d, ho⟩
    rw [after_other hother]
    simp only [kind?_eq] at hother hclosing
    exact opened_succ_of_other hother hclosing

end Nested

end Target

end Stencil
