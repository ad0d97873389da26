import Stencil.Match.Find
import Stencil.Proofs.Match.Alignment
import Stencil.Proofs.NameMap

/-!
# Bindings of an alignment

A pattern laid along a target binds each of its names once, in the order in
which they come first, and each to tokens inside the alignment at which the hole
may end.  The captures of a match are these tokens.
-/

namespace Stencil

/-- The names bound behind the pattern, the latest first, where `names` are bound
before it. -/
def Pattern.namesFrom (names : List String) : Pattern → List String
  | nil => names
  | hole h _ rest => rest.namesFrom (if h.name ∈ names then names else h.name :: names)
  | text _ _ rest => rest.namesFrom names
  | block _ body rest => rest.namesFrom (body.namesFrom names)

/-! ## Names of a pattern -/

theorem Pattern.mem_namesFrom_iff {p : Pattern} {names : List String} {name : String} :
    name ∈ p.namesFrom names ↔ name ∈ names ∨ name ∈ p.holeNames := by
  simp only [holeNames, List.mem_eraseDups]
  induction p generalizing names with
  | nil => simp [namesFrom, holes]
  | hole h offset rest ih =>
      rw [namesFrom, ih, holes, List.map_cons, List.mem_cons]
      by_cases hname : h.name ∈ names
      · rw [if_pos hname]
        constructor
        · exact Or.imp_right .inr
        · rintro (hmem | rfl | hmem)
          · exact .inl hmem
          · exact .inl hname
          · exact .inr hmem
      · rw [if_neg hname, List.mem_cons, or_assoc, or_left_comm]
  | text content offset rest ih => rw [namesFrom, ih, holes]
  | block offset body rest ihBody ihRest =>
      rw [namesFrom, ihRest, ihBody, holes, List.map_append, List.mem_append, or_assoc]

theorem Pattern.reverse_namesFrom (p : Pattern) (names : List String) :
    (p.namesFrom names).reverse =
      names.reverse ++ ((p.holes.map (·.1.name)).removeAll names).eraseDups := by
  induction p generalizing names with
  | nil => simp [namesFrom, holes, List.removeAll]
  | hole h offset rest ih =>
      rw [namesFrom, ih, holes, List.map_cons]
      by_cases hname : h.name ∈ names
      · simp [hname, List.removeAll]
      · rw [if_neg hname, List.removeAll_cons]
        simp [hname, List.removeAll, List.eraseDups_cons, List.filter_filter, Bool.and_comm]
  | text content offset rest ih => rw [namesFrom, ih, holes]
  | block offset body rest ihBody ihRest =>
      have hrest : (rest.holes.map (·.1.name)).removeAll (body.namesFrom names) =
          ((rest.holes.map (·.1.name)).removeAll names).removeAll
            ((body.holes.map (·.1.name)).removeAll names) := by
        simp only [List.removeAll, List.filter_filter]
        apply List.filter_congr
        intro name _
        by_cases hname : name ∈ names <;> simp [mem_namesFrom_iff, holeNames, hname]
      rw [namesFrom, ihRest, ihBody, hrest, holes, List.map_append, List.append_assoc,
        ← List.eraseDups_append]
      simp [List.removeAll]

theorem nodup_eraseDups {α : Type} [BEq α] [LawfulBEq α] (xs : List α) :
    xs.eraseDups.Nodup := by
  induction hn : xs.length using Nat.strongRecOn generalizing xs with
  | ind n ih =>
      cases xs with
      | nil => simp
      | cons x xs =>
          have hshort := List.length_filter_le (fun y => !y == x) xs
          rw [List.length_cons] at hn
          rw [List.eraseDups_cons, List.nodup_cons]
          exact ⟨by simp, ih _ (by omega) _ rfl⟩

section

variable {v : Vocabulary} {t : Target} {p : Pattern} {limit i j : Nat}
  {bound bound' : List (String × TokenRange)}

theorem not_mem_names_of_lookup {name : String} (h : bound.lookup name = none) :
    name ∉ bound.map (·.1) := by
  intro hmem
  obtain ⟨entry, hentry, hname⟩ := List.mem_map.mp hmem
  have hne := List.lookup_eq_none_iff.mp h entry hentry
  simp [hname] at hne

theorem mem_names_of_lookup {name : String} {range : TokenRange}
    (h : bound.lookup name = some range) : name ∈ bound.map (·.1) :=
  List.mem_map_of_mem (mem_of_lookup_eq_some h)

theorem lookup_of_suffix (h : bound <:+ bound') (hnodup : (bound'.map (·.1)).Nodup)
    {name : String} {range : TokenRange} (hlookup : bound.lookup name = some range) :
    bound'.lookup name = some range := by
  obtain ⟨newer, rfl⟩ := h
  rw [List.map_append, List.nodup_append] at hnodup
  have hold := mem_names_of_lookup hlookup
  cases hnewer : newer.lookup name with
  | none => rw [List.lookup_append, hnewer, hlookup]; rfl
  | some range' => exact absurd rfl (hnodup.2.2 _ (mem_names_of_lookup hnewer) _ hold)

theorem Lays.lookup_eq (hlays : Lays v t p limit i bound j bound') {name : String}
    {range : TokenRange} (h : bound.lookup name = some range) :
    bound'.lookup name = some range := by
  induction hlays with
  | nil => exact h
  | text _ _ ih => exact ih h
  | choice hfree _ _ _ ih =>
      apply ih
      rw [lookup_cons_eq_ite, if_neg ?_]
      · exact h
      · rintro rfl
        simp [hfree] at h
  | repetition _ _ _ _ _ ih => exact ih h
  | block _ _ _ _ ihBody ihRest => exact ihRest (ihBody h)

theorem Lays.nodup (hlays : Lays v t p limit i bound j bound')
    (h : (bound.map (·.1)).Nodup) : (bound'.map (·.1)).Nodup := by
  induction hlays with
  | nil => exact h
  | text _ _ ih => exact ih h
  | choice hfree _ _ _ ih =>
      apply ih
      rw [List.map_cons, List.nodup_cons]
      exact ⟨not_mem_names_of_lookup hfree, h⟩
  | repetition _ _ _ _ _ ih => exact ih h
  | block _ _ _ _ ihBody ihRest => exact ihRest (ihBody h)

theorem Lays.names_eq (hlays : Lays v t p limit i bound j bound') :
    bound'.map (·.1) = p.namesFrom (bound.map (·.1)) := by
  induction hlays with
  | nil => rfl
  | text _ _ ih => exact ih
  | choice hfree _ _ _ ih =>
      rw [ih, Pattern.namesFrom, if_neg (not_mem_names_of_lookup hfree), List.map_cons]
  | repetition hbound _ _ _ _ ih =>
      rw [ih, Pattern.namesFrom, if_pos (mem_names_of_lookup hbound)]
  | block _ _ _ _ ihBody ihRest => rw [ihRest, ihBody, Pattern.namesFrom]

theorem Lays.mem_names_iff (hlays : Lays v t p limit i [] j bound) {name : String} :
    name ∈ bound.map (·.1) ↔ name ∈ p.holeNames := by
  rw [hlays.names_eq, Pattern.mem_namesFrom_iff, List.map_nil]
  exact or_iff_right List.not_mem_nil

theorem Lays.exists_lookup (hlays : Lays v t p limit i bound j bound') {name : String}
    (hname : name ∈ p.holeNames) : ∃ range, bound'.lookup name = some range := by
  have hmem : name ∈ bound'.map (·.1) := by
    rw [hlays.names_eq]
    exact Pattern.mem_namesFrom_iff.mpr (.inr hname)
  cases hlookup : bound'.lookup name with
  | none => exact absurd hmem (not_mem_names_of_lookup hlookup)
  | some range => exact ⟨range, rfl⟩

theorem Lays.captureEnd_of_mem (h : t.Nested) (hlays : Lays v t p limit i bound j bound')
    (hi : t.Inside limit i) {entry : String × TokenRange} (hentry : entry ∈ bound') :
    entry ∈ bound ∨
      i ≤ entry.2.first ∧ entry.2.first ≤ entry.2.last ∧ entry.2.last ≤ j ∧
        ∃ q, t.CaptureEnd entry.2.first entry.2.last q := by
  induction hlays with
  | nil => exact .inl hentry
  | text hends _ ih =>
      refine (ih (hi.mono hends.1 hends.2.1) hentry).imp_right ?_
      rintro ⟨hfirst, hrest⟩
      exact ⟨Nat.le_trans hends.1 hfirst, hrest⟩
  | @choice hole _ _ i k _ _ _ _ _ hend _ hrest ih =>
      have hle := Target.captureEnd_le h (Nat.le_trans hi.1 (hi.limit_le_size h)) hend
      have hk := hi.mono hle.1 (Nat.le_trans hle.2 (hi.scopeEnd_le h))
      rcases ih hk hentry with hmem | ⟨hfirst, hlater⟩
      · rcases List.mem_cons.mp hmem with rfl | hmem
        · exact .inr ⟨Nat.le_refl _, hle.1, (hrest.inside h hk).1, hole.quantifier, hend⟩
        · exact .inl hmem
      · exact .inr ⟨Nat.le_trans hle.1 hfirst, hlater⟩
  | repetition _ hik hlimit _ _ ih =>
      refine (ih (hi.mono hik hlimit) hentry).imp_right ?_
      rintro ⟨hfirst, hrest⟩
      exact ⟨Nat.le_trans hik hfirst, hrest⟩
  | block _ hbrace _ hrest ihBody ihRest =>
      have hforward := h.lt_partner hbrace
      have hk := hi.mono (by omega) (hi.partner_lt h hbrace)
      have hkj := (hrest.inside h hk).1
      rcases ihRest hk hentry with hmem | ⟨hfirst, hlater⟩
      · refine (ihBody (.opening_succ h hbrace) hmem).imp_right ?_
        rintro ⟨hfirst, hle, hlast, hcapture⟩
        exact ⟨by omega, hle, by omega, hcapture⟩
      · exact .inr ⟨by omega, hlater⟩

theorem Lays.within_of_mem (h : t.Nested) (hlays : Lays v t p limit i [] j bound)
    (hi : t.Inside limit i) {entry : String × TokenRange} (hentry : entry ∈ bound) :
    i ≤ entry.2.first ∧ entry.2.first ≤ entry.2.last ∧ entry.2.last ≤ j := by
  rcases hlays.captureEnd_of_mem h hi hentry with hnil | ⟨hfirst, hforward, hlast, _⟩
  · simp at hnil
  · exact ⟨hfirst, hforward, hlast⟩

end

theorem Alignment.find?_captures {t : Target} {a : Alignment}
    (h : (a.bindings.map (·.1)).Nodup) (name : String) :
    (a.toMatch t).captures.find? name = (a.bindings.lookup name).map (·.capture t) := by
  rw [Alignment.toMatch, NameMap.find?_ofList, lookup_map_snd]
  rw [List.map_map]
  exact h

theorem Alignment.names_captures_perm {v : Vocabulary} {t : Target} {p : Pattern} {a : Alignment}
    (h : Lays v t p t.size a.first [] a.last a.bindings) :
    ((a.toMatch t).captures.entries.map (·.1)).Perm p.holeNames := by
  have hnodup : (a.bindings.map (·.1)).Nodup := h.nodup .nil
  have hentries : (a.toMatch t).captures.entries.Perm
      (a.bindings.map fun entry => (entry.1, entry.2.capture t)) :=
    NameMap.entries_ofList_perm (by rwa [List.map_map])
  have hnames := hentries.map (·.1)
  rw [List.map_map] at hnames
  exact hnames.trans ((List.perm_ext_iff_of_nodup hnodup (nodup_eraseDups _)).mpr
    fun _ => h.mem_names_iff)

end Stencil
