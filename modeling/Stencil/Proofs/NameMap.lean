import Stencil.NameMap

/-!
# Finding names

What a name map holds after insertions.
-/

namespace Stencil

theorem lookup_cons_eq_ite {α : Type} (name key : String) (value : α)
    (entries : List (String × α)) :
    ((name, value) :: entries).lookup key =
      if key = name then some value else entries.lookup key := by
  rw [List.lookup_cons]
  split
  · rename_i heq
    rw [if_pos (by simpa using heq)]
  · rename_i hne
    rw [if_neg (by simpa using hne)]

theorem lookup_map_snd {α β : Type} (f : α → β) (entries : List (String × α)) (key : String) :
    (entries.map fun (name, value) => (name, f value)).lookup key =
      (entries.lookup key).map f := by
  induction entries with
  | nil => rfl
  | cons entry rest ih =>
      rw [List.map_cons, List.lookup_cons, List.lookup_cons, ih]
      split <;> rfl

theorem lookup_map_fst {α : Type} {f : String → String} {entries : List (String × α)} {key : String}
    (h : ∀ entry ∈ entries, f entry.1 = f key → entry.1 = key) :
    (entries.map fun (name, value) => (f name, value)).lookup (f key) = entries.lookup key := by
  induction entries with
  | nil => rfl
  | cons entry rest ih =>
      obtain ⟨name, value⟩ := entry
      have hrest := ih fun entry hentry => h entry (List.mem_cons_of_mem _ hentry)
      have hname : f key = f name ↔ key = name :=
        ⟨fun heq => (h _ List.mem_cons_self heq.symm).symm, congrArg f⟩
      rw [List.map_cons, lookup_cons_eq_ite, lookup_cons_eq_ite, hrest]
      simp only [hname]

theorem mem_of_lookup_eq_some {α : Type} {entries : List (String × α)} {name : String} {value : α}
    (h : entries.lookup name = some value) : (name, value) ∈ entries := by
  obtain ⟨before, after, rfl, _⟩ := List.lookup_eq_some_iff.mp h
  simp

theorem lookup_eq_some_of_mem {α : Type} {entries : List (String × α)}
    (hnodup : (entries.map (·.1)).Nodup) {entry : String × α} (hentry : entry ∈ entries) :
    entries.lookup entry.1 = some entry.2 := by
  induction entries with
  | nil => simp at hentry
  | cons first rest ih =>
      rw [List.map_cons, List.nodup_cons] at hnodup
      rw [lookup_cons_eq_ite]
      rcases List.mem_cons.mp hentry with rfl | hentry
      · rw [if_pos rfl]
      · have hne : entry.1 ≠ first.1 :=
          fun heq => hnodup.1 (List.mem_map.mpr ⟨entry, hentry, heq⟩)
        rw [if_neg hne, ih hnodup.2 hentry]

namespace NameMap

private theorem lookup_insertSorted {α : Type} (name key : String) (value : α)
    (entries : List (String × α)) :
    (insertSorted name value entries).lookup key =
      if key = name then some value else entries.lookup key := by
  induction entries with
  | nil => simp [insertSorted, lookup_cons_eq_ite]
  | cons entry rest ih =>
      obtain ⟨old, oldValue⟩ := entry
      rw [insertSorted]
      split
      · rw [lookup_cons_eq_ite]
      · split
        · rename_i heq
          subst heq
          by_cases hkey : key = name <;> simp [lookup_cons_eq_ite, hkey]
        · rename_i hne
          rw [lookup_cons_eq_ite, ih, lookup_cons_eq_ite]
          by_cases hkey : key = name
          · subst hkey
            simp [hne]
          · simp [hkey]

theorem find?_insert {α : Type} (m : NameMap α) (name key : String) (value : α) :
    (m.insert name value).find? key = if key = name then some value else m.find? key :=
  lookup_insertSorted name key value m.entries

private theorem find?_foldl_insert {α : Type} (entries : List (String × α)) (m : NameMap α)
    (hnodup : (entries.map (·.1)).Nodup) (key : String) :
    (entries.foldl (fun m (name, value) => m.insert name value) m).find? key =
      (entries.lookup key).or (m.find? key) := by
  induction entries generalizing m with
  | nil => simp
  | cons entry rest ih =>
      obtain ⟨name, value⟩ := entry
      rw [List.map_cons, List.nodup_cons] at hnodup
      rw [List.foldl_cons, ih _ hnodup.2, find?_insert, lookup_cons_eq_ite]
      by_cases hkey : key = name
      · subst hkey
        have hnone : rest.lookup key = none := by
          rw [List.lookup_eq_none_iff]
          intro entry hentry
          have hne : key ≠ entry.1 := by
            rintro rfl
            exact hnodup.1 (List.mem_map.mpr ⟨entry, hentry, rfl⟩)
          simpa using hne
        simp [hnone]
      · simp [hkey]

theorem find?_ofList {α : Type} {entries : List (String × α)}
    (hnodup : (entries.map (·.1)).Nodup) (key : String) :
    (ofList entries).find? key = entries.lookup key := by
  rw [ofList, find?_foldl_insert entries empty hnodup key]
  simp [find?, empty]

private theorem perm_insertSorted {α : Type} {name : String} (value : α)
    {entries : List (String × α)} (hname : name ∉ entries.map (·.1)) :
    (insertSorted name value entries).Perm ((name, value) :: entries) := by
  induction entries with
  | nil => exact .refl _
  | cons entry rest ih =>
      obtain ⟨old, oldValue⟩ := entry
      rw [List.map_cons, List.mem_cons, not_or] at hname
      rw [insertSorted]
      split
      · exact .refl _
      · rw [if_neg hname.1]
        exact ((ih hname.2).cons _).trans (.swap ..)

private theorem entries_foldl_insert_perm {α : Type} (entries : List (String × α)) (m : NameMap α)
    (hnodup : ((entries ++ m.entries).map (·.1)).Nodup) :
    (entries.foldl (fun m (name, value) => m.insert name value) m).entries.Perm
      (entries ++ m.entries) := by
  induction entries generalizing m with
  | nil => exact .refl _
  | cons entry rest ih =>
      obtain ⟨name, value⟩ := entry
      rw [List.cons_append, List.map_cons, List.nodup_cons] at hnodup
      have hfresh : name ∉ m.entries.map (·.1) := fun hmem => hnodup.1 (by simp_all)
      have hinsert : (m.insert name value).entries.Perm ((name, value) :: m.entries) :=
        perm_insertSorted value hfresh
      have hmoved : (rest ++ (m.insert name value).entries).Perm
          ((name, value) :: (rest ++ m.entries)) :=
        (hinsert.append_left rest).trans List.perm_middle
      refine (ih (m.insert name value) ?_).trans hmoved
      rw [(hmoved.map (·.1)).nodup_iff, List.map_cons, List.nodup_cons]
      exact hnodup

theorem entries_ofList_perm {α : Type} {entries : List (String × α)}
    (hnodup : (entries.map (·.1)).Nodup) : (ofList entries).entries.Perm entries := by
  have hperm := entries_foldl_insert_perm entries empty (by simpa [empty] using hnodup)
  rwa [show (empty : NameMap α).entries = [] from rfl, List.append_nil] at hperm

theorem find?_map {α β : Type} (f : α → β) (m : NameMap α) (key : String) :
    (m.map f).find? key = (m.find? key).map f :=
  lookup_map_snd f m.entries key

end NameMap

end Stencil
