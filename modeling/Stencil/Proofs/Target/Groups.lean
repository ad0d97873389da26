import Stencil.Proofs.Success
import Stencil.Proofs.Target.Acceptance
import Stencil.Proofs.Target.Scopes

/-!
# Groups

A bracket and its partner are the ends of a group.  Groups are nested or apart, and
the scope of a token ends where the smallest group around it does.
-/

namespace Stencil

namespace Target

def Holds (t : Target) (o i : Nat) : Prop :=
  t.isOpening o = true ∧ o < i ∧ i < t.partner o

theorem kind?_of_ofTokens? {source : String} {tokens : List Token} {t : Target}
    (ht : ofTokens? source tokens = .ok t) (i : Nat) :
    t.kind? i = tokens[i]?.map (·.kind) := by
  obtain ⟨ls, hkinds, _, htokens⟩ := (tiles_of_ofTokens? ht).1.exists_lexemes
  obtain ⟨_, _, rfl⟩ := ofLexemes?_eq_ok (htokens.symm.trans ht)
  rw [← List.getElem?_map, ← hkinds, List.getElem?_map]
  simp [kind?]

namespace Nested

variable {t : Target} {i o o' : Nat} {d d' : Delimiter}

theorem partner_partner (h : t.Nested) (ho : t.kind? o = some (.opening d)) :
    t.partner (t.partner o) = o :=
  (h.partner_closer (h.kind?_partner ho)).unique_opener (h.closes_partner ho)

theorem opening_partner (h : t.Nested) (hi : t.kind? i = some (.closing d)) :
    t.kind? (t.partner i) = some (.opening d) := by
  obtain ⟨d', hopening⟩ := (h.partner_closer hi).opening
  rw [← kind?_eq] at hopening
  have hcloser := h.kind?_partner hopening
  rw [h.partner_opener (h.partner_closer hi), hi] at hcloser
  obtain rfl : d = d' := by simpa using hcloser
  exact hopening

theorem mem_opened_of_lt (h : t.Nested) (ho : t.kind? o = some (.opening d)) (hoi : o < i)
    (hi : i ≤ t.partner o) : (o, d) ∈ opened t.kinds i :=
  ((h.opened_partner ho).2.2 i hoi hi).subset List.mem_cons_self

theorem apart_or_within (h : t.Nested) (ho : t.kind? o = some (.opening d))
    (ho' : t.kind? o' = some (.opening d')) (hlt : o < o') :
    t.partner o < o' ∨ t.partner o' < t.partner o := by
  rcases Nat.lt_trichotomy (t.partner o) o' with hbehind | heq | hinside
  · exact .inl hbehind
  · have hcloser := h.kind?_partner ho
    rw [heq, ho'] at hcloser
    simp at hcloser
  · refine .inr (Nat.lt_of_not_le fun hle => ?_)
    -- The later bracket would still be open where the earlier one is closed.
    have hopen := h.mem_opened_of_lt ho' hinside hle
    rw [(h.opened_partner ho).2.1] at hopen
    rcases List.mem_cons.mp hopen with heq | hmem
    · simp only [Prod.mk.injEq] at heq
      omega
    · have := (opening_of_mem_opened hmem).1
      omega

theorem scopeEnd_of_holds (h : t.Nested) (hi : i < t.size)
    (hclosing : ∀ d, t.kind? i ≠ some (.closing d)) :
    (∃ o, t.Holds o i ∧ t.scopeEnd i = t.partner o ∧
        ∀ o', t.Holds o' i → o' ≤ o ∧ t.partner o ≤ t.partner o') ∨
      (∀ o, ¬ t.Holds o i) ∧ t.scopeEnd i = t.size := by
  cases hopened : opened t.kinds i with
  | nil =>
      refine .inr ⟨?_, h.scopeEnd_of_nil hopened⟩
      rintro o ⟨hopening, hoi, hio⟩
      obtain ⟨d, ho⟩ := isOpening_iff.mp hopening
      have hmem := h.mem_opened_of_lt ho hoi (Nat.le_of_lt hio)
      simp [hopened] at hmem
  | cons top outer =>
      have hmem : top ∈ opened t.kinds i := hopened ▸ List.mem_cons_self
      obtain ⟨hlt, htop⟩ := opening_of_mem_opened hmem
      rw [← kind?_eq] at htop
      have hscope := h.scopeEnd_of_cons hopened
      have hinside : i < t.partner top.1 := hscope ▸ h.lt_scopeEnd hi hclosing
      refine .inl ⟨top.1, ⟨isOpening_iff.mpr ⟨_, htop⟩, hlt, hinside⟩, hscope, ?_⟩
      rintro o' ⟨hopening, hoi, hio⟩
      obtain ⟨d', ho'⟩ := isOpening_iff.mp hopening
      have hmem' := h.mem_opened_of_lt ho' hoi (Nat.le_of_lt hio)
      rw [hopened] at hmem'
      rcases List.mem_cons.mp hmem' with rfl | houter
      · exact ⟨Nat.le_refl _, Nat.le_refl _⟩
      · have hpairwise := pairwise_opened t.kinds i
        rw [hopened, List.pairwise_cons] at hpairwise
        have hbefore := hpairwise.1 _ houter
        refine ⟨Nat.le_of_lt hbefore, ?_⟩
        rcases h.apart_or_within ho' htop hbefore with hapart | hwithin
        · omega
        · exact Nat.le_of_lt hwithin

end Nested

/-- The brackets of a target pair up, its groups are nested or apart, and the scope of a
token that is no closer ends with the smallest group that holds it. -/
theorem groups_of_target {source : String} {tokens : List Token} {t : Target}
    (ht : ofTokens? source tokens = .ok t) :
    (∀ i, t.kind? i = tokens[i]?.map (·.kind)) ∧
      (∀ o d, t.kind? o = some (.opening d) → o < t.partner o ∧
        t.kind? (t.partner o) = some (.closing d) ∧ t.partner (t.partner o) = o) ∧
      (∀ c d, t.kind? c = some (.closing d) → t.partner c < c ∧
        t.kind? (t.partner c) = some (.opening d) ∧ t.partner (t.partner c) = c) ∧
      (∀ o o', t.isOpening o = true → t.isOpening o' = true → o < o' →
        t.partner o < o' ∨ t.partner o' < t.partner o) ∧
      (∀ c d, t.kind? c = some (.closing d) → t.scopeEnd c = c) ∧
      ∀ i, i < t.size → (∀ d, t.kind? i ≠ some (.closing d)) →
        (∃ o, t.Holds o i ∧ t.scopeEnd i = t.partner o ∧
          ∀ o', t.Holds o' i → o' ≤ o ∧ t.partner o ≤ t.partner o') ∨
        (∀ o, ¬ t.Holds o i) ∧ t.scopeEnd i = t.size := by
  have hN : t.Nested := nested_of_ofTokens? ht
  refine ⟨kind?_of_ofTokens? ht, ?_, ?_, ?_, fun c d hc => hN.scopeEnd_closing hc,
    fun i hi hclosing => hN.scopeEnd_of_holds hi hclosing⟩
  · intro o d ho
    exact ⟨hN.lt_partner ho, hN.kind?_partner ho, hN.partner_partner ho⟩
  · intro c d hc
    exact ⟨(hN.partner_closer hc).lt, hN.opening_partner hc,
      hN.partner_opener (hN.partner_closer hc)⟩
  · intro o o' hopening hopening' hlt
    obtain ⟨d, ho⟩ := isOpening_iff.mp hopening
    obtain ⟨d', ho'⟩ := isOpening_iff.mp hopening'
    exact hN.apart_or_within ho ho' hlt

/-- The kinds are the caller's: the braces are an `x` and an `é`, and the square bracket
counts as a word. -/
theorem groups_of_target_kinds_of_caller :
    ∃ t, ofTokens? "f(x[é)c" [⟨.word, ⟨0, 1⟩⟩, ⟨.opening .paren, ⟨1, 2⟩⟩,
        ⟨.opening .brace, ⟨2, 3⟩⟩, ⟨.word, ⟨3, 4⟩⟩, ⟨.closing .brace, ⟨4, 6⟩⟩,
        ⟨.closing .paren, ⟨6, 7⟩⟩, ⟨.word, ⟨7, 8⟩⟩] = .ok t ∧
      (List.range t.size).map t.scopeEnd = [7, 7, 5, 4, 4, 5, 7] ∧
      (t.kind? 2 = some (.opening .brace) ∧ 2 < t.partner 2 ∧
        t.kind? (t.partner 2) = some (.closing .brace) ∧ t.partner (t.partner 2) = 2) ∧
      ((∃ o, t.Holds o 3 ∧ t.scopeEnd 3 = t.partner o ∧
          ∀ o', t.Holds o' 3 → o' ≤ o ∧ t.partner o ≤ t.partner o') ∨
        (∀ o, ¬ t.Holds o 3) ∧ t.scopeEnd 3 = t.size) := by
  have hscopes : (ofTokens? "f(x[é)c" [⟨.word, ⟨0, 1⟩⟩, ⟨.opening .paren, ⟨1, 2⟩⟩,
        ⟨.opening .brace, ⟨2, 3⟩⟩, ⟨.word, ⟨3, 4⟩⟩, ⟨.closing .brace, ⟨4, 6⟩⟩,
        ⟨.closing .paren, ⟨6, 7⟩⟩, ⟨.word, ⟨7, 8⟩⟩]).map
          (fun t => (t.size, (List.range t.size).map t.scopeEnd)) =
      .ok (7, [7, 7, 5, 4, 4, 5, 7]) := by decide +kernel
  obtain ⟨t, ht, hscopes⟩ := exists_ok_of_map_eq_ok hscopes
  obtain ⟨hsize, hscopes⟩ := Prod.mk.inj hscopes
  obtain ⟨hkinds, hopening, _, _, _, hscope⟩ := groups_of_target ht
  have hbrace : t.kind? 2 = some (.opening .brace) := hkinds 2
  have hword : t.kind? 3 = some .word := hkinds 3
  exact ⟨t, ht, hscopes, ⟨hbrace, hopening 2 .brace hbrace⟩,
    hscope 3 (by omega) (by simp [hword])⟩

end Target

end Stencil
