import Stencil.Text.Utf8

/-!
# Cutting text at byte offsets

Byte offsets that fall between two characters cut a text into the two parts
that they stand between.
-/

namespace Stencil

@[simp] theorem byteLength_nil : byteLength [] = 0 := rfl

@[simp] theorem byteLength_cons (c : Char) (cs : List Char) :
    byteLength (c :: cs) = c.utf8Size + byteLength cs := rfl

@[simp] theorem byteLength_append (front back : List Char) :
    byteLength (front ++ back) = byteLength front + byteLength back := by
  induction front with
  | nil => simp
  | cons c cs ih => simp [ih, Nat.add_assoc]

theorem byteLength_pos {cs : List Char} (h : cs ≠ []) : 0 < byteLength cs := by
  cases cs with
  | nil => contradiction
  | cons c cs =>
      have := c.utf8Size_pos
      simp only [byteLength_cons]
      omega

theorem eq_nil_of_byteLength {cs : List Char} (h : byteLength cs = 0) : cs = [] := by
  cases cs with
  | nil => rfl
  | cons c cs =>
      have := byteLength_pos (List.cons_ne_nil c cs)
      omega

theorem append_inj_of_byteLength {front front' back back' : List Char}
    (h : front ++ back = front' ++ back') (hlen : byteLength front = byteLength front') :
    front = front' ∧ back = back' := by
  induction front generalizing front' with
  | nil =>
      have hnil : front' = [] := eq_nil_of_byteLength hlen.symm
      subst hnil
      exact ⟨rfl, h⟩
  | cons c cs ih =>
      cases front' with
      | nil =>
          have := c.utf8Size_pos
          simp only [byteLength_cons, byteLength_nil] at hlen
          omega
      | cons c' cs' =>
          simp only [List.cons_append, List.cons.injEq] at h
          rcases h with ⟨rfl, h⟩
          have hrest := ih h (by simpa using hlen)
          exact ⟨by rw [hrest.1], hrest.2⟩

theorem takeBytes_zero (cs : List Char) : takeBytes 0 cs = [] := by
  cases cs <;> rfl

@[simp] theorem takeBytes_append (front back : List Char) :
    takeBytes (byteLength front) (front ++ back) = front := by
  induction front with
  | nil => exact takeBytes_zero back
  | cons c cs ih =>
      have hpos := c.utf8Size_pos
      obtain ⟨n, hn⟩ : ∃ n, byteLength (c :: cs) = n + 1 :=
        ⟨byteLength (c :: cs) - 1, by simp only [byteLength_cons]; omega⟩
      have hrest : n + 1 - c.utf8Size = byteLength cs := by
        simp only [byteLength_cons] at hn
        omega
      rw [hn, List.cons_append, takeBytes, hrest, ih]

@[simp] theorem dropBytes_append (front back : List Char) :
    dropBytes (byteLength front) (front ++ back) = back := by
  induction front with
  | nil => cases back <;> rfl
  | cons c cs ih =>
      have hpos := c.utf8Size_pos
      obtain ⟨n, hn⟩ : ∃ n, byteLength (c :: cs) = n + 1 :=
        ⟨byteLength (c :: cs) - 1, by simp only [byteLength_cons]; omega⟩
      have hrest : n + 1 - c.utf8Size = byteLength cs := by
        simp only [byteLength_cons] at hn
        omega
      rw [hn, List.cons_append, dropBytes, hrest, ih]

@[simp] theorem sliceBytes_append (front middle back : List Char) :
    sliceBytes (byteLength front) (byteLength front + byteLength middle)
      (front ++ (middle ++ back)) = middle := by
  simp [sliceBytes]

theorem splitBytes?_eq_some_iff {n : Nat} {cs front back : List Char} :
    splitBytes? n cs = some (front, back) ↔ cs = front ++ back ∧ byteLength front = n := by
  induction cs generalizing n front with
  | nil =>
      cases n with
      | zero =>
          simp only [splitBytes?, Option.some.injEq, Prod.mk.injEq, List.nil_eq,
            List.append_eq_nil_iff]
          constructor
          · rintro ⟨rfl, rfl⟩
            simp
          · rintro ⟨⟨rfl, rfl⟩, _⟩
            simp
      | succ n =>
          simp only [splitBytes?, reduceCtorEq, List.nil_eq, List.append_eq_nil_iff, false_iff]
          rintro ⟨⟨rfl, rfl⟩, h⟩
          simp at h
  | cons c cs ih =>
      cases n with
      | zero =>
          simp only [splitBytes?, Option.some.injEq, Prod.mk.injEq]
          constructor
          · rintro ⟨rfl, rfl⟩
            simp
          · rintro ⟨hcs, hlen⟩
            have hnil := eq_nil_of_byteLength hlen
            subst hnil
            exact ⟨rfl, hcs⟩
      | succ n =>
          have hpos := c.utf8Size_pos
          rw [splitBytes?]
          split
          · rename_i hfits
            simp only [Option.map_eq_some_iff, Prod.exists, Prod.mk.injEq]
            constructor
            · rintro ⟨taken, rest, hsplit, rfl, rfl⟩
              obtain ⟨rfl, hlen⟩ := ih.mp hsplit
              refine ⟨rfl, ?_⟩
              simp only [byteLength_cons]
              omega
            · rintro ⟨hcs, hlen⟩
              cases front with
              | nil => simp at hlen
              | cons c' front =>
                  simp only [List.cons_append, List.cons.injEq] at hcs
                  rcases hcs with ⟨rfl, rfl⟩
                  simp only [byteLength_cons] at hlen
                  exact ⟨front, back, ih.mpr ⟨rfl, by omega⟩, rfl, rfl⟩
          · rename_i hlong
            simp only [reduceCtorEq, false_iff]
            rintro ⟨hcs, hlen⟩
            cases front with
            | nil => simp at hlen
            | cons c' front =>
                simp only [List.cons_append, List.cons.injEq] at hcs
                rcases hcs with ⟨rfl, rfl⟩
                simp only [byteLength_cons] at hlen
                omega

end Stencil
