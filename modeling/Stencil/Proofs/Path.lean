import Stencil.Path

/-!
# The order of paths

Paths are ordered by their components, and the order is total.  Inner dots and repeated
separators leave the components as they are; a dot in front is one of them.
-/

namespace Stencil

/-! ## Components -/

namespace Component

theorem lt_self (a : Component) : a.lt a = false := by
  cases a <;> simp [lt]

theorem lt_iff {a b : Component} :
    a.lt b = true ↔ a.rank < b.rank ∨ ∃ s t, a = name s ∧ b = name t ∧ s < t := by
  cases a <;> cases b <;> simp [lt, rank]

theorem lt_trans {a b c : Component} (hab : a.lt b = true) (hbc : b.lt c = true) :
    a.lt c = true := by
  rw [lt_iff] at hab hbc ⊢
  rcases hab with hab | ⟨s, t, rfl, rfl, hst⟩
  · rcases hbc with hbc | ⟨s, t, rfl, rfl, _⟩
    · exact .inl (Nat.lt_trans hab hbc)
    · exact .inl hab
  · rcases hbc with hbc | ⟨t', u, ht, rfl, htu⟩
    · exact .inl hbc
    · obtain rfl := name.inj ht
      exact .inr ⟨s, u, rfl, rfl, String.lt_trans hst htu⟩

theorem eq_of_not_lt {a b : Component} (hab : a.lt b = false) (hba : b.lt a = false) :
    a = b := by
  rw [← Bool.not_eq_true, lt_iff, not_or] at hab hba
  have hrank : a.rank = b.rank := Nat.le_antisymm (Nat.not_lt.mp hba.1) (Nat.not_lt.mp hab.1)
  cases a with
  | name s =>
      cases b with
      | name t =>
          have hst : ¬ s < t := fun h => hab.2 ⟨s, t, rfl, rfl, h⟩
          have hts : ¬ t < s := fun h => hba.2 ⟨t, s, rfl, rfl, h⟩
          exact congrArg name (String.le_antisymm hts hst)
      | _ => cases hrank
  | _ => cases b <;> first | rfl | cases hrank

end Component

namespace Path

/-! ## Order -/

theorem leComponents_cons_iff {a b : Component} {as bs : List Component} :
    leComponents (a :: as) (b :: bs) = true ↔
      a.lt b = true ∨ (a = b ∧ leComponents as bs = true) := by
  simp only [leComponents, Bool.or_eq_true, Bool.and_eq_true, Bool.not_eq_true']
  constructor
  · rintro (hlt | ⟨hba, hle⟩)
    · exact .inl hlt
    · cases hab : a.lt b with
      | true => exact .inl rfl
      | false => exact .inr ⟨Component.eq_of_not_lt hab hba, hle⟩
  · rintro (hlt | ⟨rfl, hle⟩)
    · exact .inl hlt
    · exact .inr ⟨a.lt_self, hle⟩

theorem leComponents_total (as bs : List Component) :
    leComponents as bs = true ∨ leComponents bs as = true := by
  induction as generalizing bs with
  | nil => exact .inl rfl
  | cons a as ih =>
      cases bs with
      | nil => exact .inr rfl
      | cons b bs =>
          rw [leComponents_cons_iff, leComponents_cons_iff]
          cases hab : a.lt b with
          | true => exact .inl (.inl rfl)
          | false =>
              cases hba : b.lt a with
              | true => exact .inr (.inl rfl)
              | false =>
                  obtain rfl := Component.eq_of_not_lt hab hba
                  rcases ih bs with hle | hle
                  · exact .inl (.inr ⟨rfl, hle⟩)
                  · exact .inr (.inr ⟨rfl, hle⟩)

theorem leComponents_refl (as : List Component) : leComponents as as = true := by
  rcases leComponents_total as as with h | h <;> exact h

theorem leComponents_trans {as bs cs : List Component} (hab : leComponents as bs = true)
    (hbc : leComponents bs cs = true) : leComponents as cs = true := by
  induction as generalizing bs cs with
  | nil => rfl
  | cons a as ih =>
      cases bs with
      | nil => simp [leComponents] at hab
      | cons b bs =>
          cases cs with
          | nil => simp [leComponents] at hbc
          | cons c cs =>
              rw [leComponents_cons_iff] at hab hbc ⊢
              rcases hab with hab | ⟨rfl, hab⟩ <;> rcases hbc with hbc | ⟨rfl, hbc⟩
              · exact .inl (Component.lt_trans hab hbc)
              · exact .inl hab
              · exact .inl hbc
              · exact .inr ⟨rfl, ih hab hbc⟩

theorem leComponents_antisymm {as bs : List Component} (hab : leComponents as bs = true)
    (hba : leComponents bs as = true) : as = bs := by
  induction as generalizing bs with
  | nil =>
      cases bs with
      | nil => rfl
      | cons b bs => simp [leComponents] at hba
  | cons a as ih =>
      cases bs with
      | nil => simp [leComponents] at hab
      | cons b bs =>
          rw [leComponents_cons_iff] at hab hba
          rcases hab with hab | ⟨rfl, hab⟩
          · rcases hba with hba | ⟨rfl, _⟩
            · have := Component.lt_trans hab hba
              simp [Component.lt_self] at this
            · simp [Component.lt_self] at hab
          · rcases hba with hba | ⟨_, hba⟩
            · simp [Component.lt_self] at hba
            · rw [ih hab hba]

theorem same_iff {p q : String} : same p q = true ↔ components p = components q := by
  simp [same]

def Before (p q : String) : Prop := le p q = true ∧ components p ≠ components q

theorem pairwise_le_mergeSort (paths : List String) :
    (paths.mergeSort le).Pairwise fun p q => le p q = true := by
  apply List.pairwise_mergeSort
  · intro p q r
    exact leComponents_trans
  · intro p q
    rw [Bool.or_eq_true]
    exact leComponents_total (components p) (components q)

/-! ## Dots -/

def Dotted (path : String) : Prop := path.toList.takeWhile (· != '/') = ['.']

def bare (path : String) : List Component := (components path).filter (· != .current)

theorem head?_splitOn (cs : List Char) :
    (cs.splitOn '/').head? = some (cs.takeWhile (· != '/')) := by
  induction cs with
  | nil => rfl
  | cons c cs ih =>
      rw [List.splitOn_cons_eq_if_modifyHead]
      split
      · rename_i hc
        simp [beq_iff_eq.mp hc]
      · rename_i hc
        have hne : c ≠ '/' := by simpa using hc
        rw [List.head?_modifyHead, ih]
        simp [hne]

theorem current_not_mem_named (segs : List String) : .current ∉ components.named segs := by
  simp only [components.named, List.mem_map, not_exists, not_and]
  intro seg _
  unfold component
  split <;> simp

theorem bare_named (segs : List String) :
    (components.named segs).filter (· != .current) = components.named segs := by
  rw [List.filter_eq_self]
  intro c hc
  have hne : c ≠ .current := fun heq => current_not_mem_named segs (heq ▸ hc)
  simpa using hne

theorem dotted_iff_segments {path : String} :
    Dotted path ↔ (segments path).head? = some "." := by
  rw [segments, List.head?_map, head?_splitOn, Option.map_some, Option.some.injEq, Dotted]
  exact String.ofList_inj.symm

theorem components_eq (path : String) :
    (Dotted path ∧ components path = .current :: bare path) ∨
      (¬ Dotted path ∧ components path = bare path) := by
  rw [dotted_iff_segments, bare]
  unfold components
  split
  · rename_i rest hsegs
    exact .inl ⟨by simp [hsegs], by simp [bare_named]⟩
  · rename_i rest hsegs
    refine .inr ⟨by simp [hsegs], ?_⟩
    split
    · rfl
    · simp [bare_named]
  · rename_i hdot hroot
    refine .inr ⟨?_, (bare_named _).symm⟩
    intro hhead
    obtain ⟨rest, hsegs⟩ := List.head?_eq_some_iff.mp hhead
    exact hdot rest hsegs

/-- Components are the same if they are but for dots in front, and both paths or neither
have such a dot. -/
theorem components_eq_iff {p q : String} :
    components p = components q ↔ bare p = bare q ∧ (Dotted p ↔ Dotted q) := by
  constructor
  · intro heq
    have hbare : bare p = bare q := by rw [bare, bare, heq]
    refine ⟨hbare, ?_⟩
    rcases components_eq p with ⟨hp, hp'⟩ | ⟨hp, hp'⟩ <;>
      rcases components_eq q with ⟨hq, hq'⟩ | ⟨hq, hq'⟩
    · simp [hp, hq]
    · simp [hp', hq', hbare] at heq
    · simp [hp', hq', hbare] at heq
    · simp [hp, hq]
  · rintro ⟨hbare, hdotted⟩
    rcases components_eq p with ⟨hp, hp'⟩ | ⟨hp, hp'⟩ <;>
      rcases components_eq q with ⟨hq, hq'⟩ | ⟨hq, hq'⟩
    · rw [hp', hq', hbare]
    · exact absurd (hdotted.mp hp) hq
    · exact absurd (hdotted.mpr hq) hp
    · rw [hp', hq', hbare]

theorem takeWhile_append_separator (cs ds : List Char) :
    (cs ++ '/' :: ds).takeWhile (· != '/') = cs.takeWhile (· != '/') := by
  induction cs with
  | nil => rfl
  | cons c cs ih =>
      by_cases hc : c = '/'
      · simp [hc]
      · simp [hc, ih]

theorem toList_of_endsWith {path : String} (h : path.endsWith "/" = true) :
    ∃ cs, path.toList = cs ++ ['/'] := by
  rw [String.endsWith_eq_endsWith_toSlice, String.Slice.endsWith_string_iff] at h
  obtain ⟨cs, hcs⟩ := h
  exact ⟨cs, by simpa using hcs.symm⟩

theorem dotted_join {path : String} (hpath : path ≠ "") (name : String) :
    Dotted (join path name) ↔ Dotted path := by
  have hempty : path.isEmpty = false := by
    rw [Bool.eq_false_iff]
    exact fun h => hpath (String.isEmpty_iff.mp h)
  unfold join Dotted
  split
  · rename_i hends
    obtain ⟨cs, hcs⟩ := toList_of_endsWith (by simpa [hempty] using hends)
    rw [String.toList_append, hcs, List.append_assoc, List.singleton_append,
      takeWhile_append_separator, takeWhile_append_separator]
  · rw [String.toList_append, String.toList_append, List.append_assoc,
      show "/".toList = ['/'] from rfl, List.singleton_append, takeWhile_append_separator]

theorem join_ne_empty {path : String} (hpath : path ≠ "") (name : String) :
    join path name ≠ "" := by
  unfold join
  split <;> simp [hpath]

theorem dotted_foldl_join {path : String} (hpath : path ≠ "") (names : List String) :
    Dotted (names.foldl join path) ↔ Dotted path := by
  induction names generalizing path with
  | nil => rfl
  | cons name names ih =>
      rw [List.foldl_cons, ih (join_ne_empty hpath name), dotted_join hpath name]

end Path

end Stencil
