import Stencil.Proofs.Text.Cuts

/-!
# Reading UTF-8

Bytes read as characters exactly if they are the UTF-8 form of those characters.
-/

namespace Stencil

@[simp] theorem utf8Bytes_nil : utf8Bytes [] = [] := rfl

@[simp] theorem utf8Bytes_cons (c : Char) (cs : List Char) :
    utf8Bytes (c :: cs) = String.utf8EncodeChar c ++ utf8Bytes cs := List.flatMap_cons

@[simp] theorem utf8Bytes_append (front back : List Char) :
    utf8Bytes (front ++ back) = utf8Bytes front ++ utf8Bytes back := List.flatMap_append

@[simp] theorem length_utf8Bytes (cs : List Char) : (utf8Bytes cs).length = byteLength cs := by
  induction cs with
  | nil => rfl
  | cons c cs ih => simp [ih]

/-! ## Forms -/

inductive Spells : Nat → List UInt8 → Prop where
  | one {v : Nat} {b : UInt8} (hv : v ≤ 0x7F) (hb : b.toNat = v) : Spells v [b]
  | two {v : Nat} {b b₁ : UInt8} (hlow : 0x80 ≤ v) (hhigh : v ≤ 0x7FF)
      (hb : b.toNat = 0xC0 + v / 64) (hb₁ : b₁.toNat = 0x80 + v % 64) : Spells v [b, b₁]
  | three {v : Nat} {b b₁ b₂ : UInt8} (hlow : 0x800 ≤ v) (hhigh : v ≤ 0xFFFF)
      (hb : b.toNat = 0xE0 + v / 4096) (hb₁ : b₁.toNat = 0x80 + v / 64 % 64)
      (hb₂ : b₂.toNat = 0x80 + v % 64) : Spells v [b, b₁, b₂]
  | four {v : Nat} {b b₁ b₂ b₃ : UInt8} (hlow : 0x10000 ≤ v) (hhigh : v ≤ 0x10FFFF)
      (hb : b.toNat = 0xF0 + v / 262144) (hb₁ : b₁.toNat = 0x80 + v / 4096 % 64)
      (hb₂ : b₂.toNat = 0x80 + v / 64 % 64) (hb₃ : b₃.toNat = 0x80 + v % 64) :
      Spells v [b, b₁, b₂, b₃]

theorem Spells.unique {v : Nat} {bytes bytes' : List UInt8} (h : Spells v bytes)
    (h' : Spells v bytes') : bytes = bytes' := by
  cases h <;> cases h' <;>
    first
      | omega
      | simp_all [← UInt8.toNat_inj]

theorem toNat_le (c : Char) : c.toNat ≤ 0x10FFFF := by
  rcases c.valid with h | h
  · exact Nat.le_trans (Nat.le_of_lt h) (by decide)
  · exact Nat.le_of_lt_succ h.2

theorem spells_utf8EncodeChar (c : Char) : Spells c.toNat (String.utf8EncodeChar c) := by
  have hle := toNat_le c
  have htoNat : c.val.toNat = c.toNat := rfl
  simp only [String.utf8EncodeChar, htoNat]
  split
  · exact .one (by omega) (by simp; omega)
  · split
    · exact .two (by omega) (by omega) (by simp; omega) (by simp; omega)
    · split
      · exact .three (by omega) (by omega) (by simp; omega) (by simp; omega) (by simp; omega)
      · exact .four (by omega) hle (by simp; omega) (by simp; omega) (by simp; omega)
          (by simp; omega)

/-! ## Single characters -/

private theorem forall_byte {p : UInt8 → Prop} (h : ∀ n : Fin 256, p (UInt8.ofNat n))
    (b : UInt8) : p b := by
  simpa using h ⟨b.toNat, b.toNat_lt⟩

theorem isContinuation_iff (b : UInt8) :
    isContinuation b = true ↔ 0x80 ≤ b.toNat ∧ b.toNat ≤ 0xBF := by
  revert b
  exact forall_byte (by decide +kernel)

theorem exists_lead_tail (c : Char) :
    ∃ lead tail, String.utf8EncodeChar c = lead :: tail ∧ isContinuation lead = false ∧
      ∀ b ∈ tail, isContinuation b = true := by
  have hspells := spells_utf8EncodeChar c
  generalize String.utf8EncodeChar c = bytes at hspells
  simp only [← Bool.not_eq_true, isContinuation_iff]
  cases hspells with
  | one => exact ⟨_, _, rfl, by omega, by simp⟩
  | two | three | four =>
      refine ⟨_, _, rfl, by omega, ?_⟩
      simp only [List.forall_mem_cons, List.not_mem_nil, false_implies, implies_true, and_true]
      omega

theorem leadByte?_cases (b : UInt8) : ∀ x ∈ leadByte? b,
    x.1 = 1 ∧ b.toNat ≤ 0x7F ∨
    x.1 = 2 ∧ 0xC2 ≤ b.toNat ∧ b.toNat ≤ 0xDF ∧ x.2.1.toNat = 0x80 ∧ x.2.2.toNat = 0xBF ∨
    x.1 = 3 ∧ 0xE0 ≤ b.toNat ∧ b.toNat ≤ 0xEF ∧
      (b.toNat = 0xE0 ∧ x.2.1.toNat = 0xA0 ∨ b.toNat ≠ 0xE0 ∧ x.2.1.toNat = 0x80) ∧
      (b.toNat = 0xED ∧ x.2.2.toNat = 0x9F ∨ b.toNat ≠ 0xED ∧ x.2.2.toNat = 0xBF) ∨
    x.1 = 4 ∧ 0xF0 ≤ b.toNat ∧ b.toNat ≤ 0xF4 ∧
      (b.toNat = 0xF0 ∧ x.2.1.toNat = 0x90 ∨ b.toNat ≠ 0xF0 ∧ x.2.1.toNat = 0x80) ∧
      (b.toNat = 0xF4 ∧ x.2.2.toNat = 0x8F ∨ b.toNat ≠ 0xF4 ∧ x.2.2.toNat = 0xBF) := by
  revert b
  exact forall_byte (by decide +kernel)

theorem isSome_leadByte? (b : UInt8) :
    b.toNat ≤ 0x7F ∨ 0xC2 ≤ b.toNat ∧ b.toNat ≤ 0xF4 → (leadByte? b).isSome = true := by
  revert b
  exact forall_byte (by decide +kernel)

theorem toNat_ofNat {v : Nat} (hv : v < 0xD800 ∨ 0xDFFF < v ∧ v < 0x110000) :
    (Char.ofNat v).toNat = v := by
  have hvalid : v.isValidChar := hv
  rw [Char.ofNat, dif_pos hvalid]
  rfl

theorem spells_of_readChar {b : UInt8} {rest : List UInt8} {c : Char} {n : Nat}
    (h : readChar b rest = .ok (c, n)) : Spells c.toNat (b :: rest.take n) := by
  unfold readChar at h
  -- One case for each length that the lead byte announces; each byte read rules out one more.
  split at h
  · simp at h
  · rename_i hlead
    have hcases := leadByte?_cases b _ hlead
    simp only [Except.ok.injEq, Prod.mk.injEq] at h
    obtain ⟨rfl, rfl⟩ := h
    rw [toNat_ofNat (by omega)]
    exact .one (by omega) rfl
  · simp at h
  · rename_i size least greatest b₁ rest hone hlead
    replace hone : size ≠ 1 := hone
    have hcases := leadByte?_cases b _ hlead
    dsimp only at hcases
    split at h
    · simp at h
    · rename_i hrange
      simp only [Bool.or_eq_true, decide_eq_true_eq, not_or, UInt8.lt_iff_toNat_lt] at hrange
      split at h
      · rename_i htwo
        simp only [beq_iff_eq] at htwo
        simp only [Except.ok.injEq, Prod.mk.injEq, pushBits] at h
        obtain ⟨rfl, rfl⟩ := h
        rw [toNat_ofNat (by omega)]
        exact .two (by omega) (by omega) (by omega) (by omega)
      · rename_i htwo
        simp only [beq_iff_eq] at htwo
        split at h
        · simp at h
        · rename_i b₂ rest
          split at h
          · simp at h
          · rename_i hb₂
            simp only [Bool.not_eq_true', Bool.not_eq_false, isContinuation_iff] at hb₂
            split at h
            · rename_i hthree
              simp only [beq_iff_eq] at hthree
              simp only [Except.ok.injEq, Prod.mk.injEq, pushBits] at h
              obtain ⟨rfl, rfl⟩ := h
              rw [toNat_ofNat (by omega)]
              exact .three (by omega) (by omega) (by omega) (by omega) (by omega)
            · rename_i hthree
              simp only [beq_iff_eq] at hthree
              split at h
              · simp at h
              · rename_i b₃ rest
                split at h
                · simp at h
                · rename_i hb₃
                  simp only [Bool.not_eq_true', Bool.not_eq_false, isContinuation_iff] at hb₃
                  simp only [Except.ok.injEq, Prod.mk.injEq, pushBits] at h
                  obtain ⟨rfl, rfl⟩ := h
                  rw [toNat_ofNat (by omega)]
                  exact .four (by omega) (by omega) (by omega) (by omega) (by omega) (by omega)

theorem readChar_of_spells {c : Char} {b : UInt8} {bs : List UInt8}
    (h : Spells c.toNat (b :: bs)) (rest : List UInt8) :
    readChar b (bs ++ rest) = .ok (c, bs.length) := by
  have hlead : ∃ x, leadByte? b = some x := by
    apply Option.isSome_iff_exists.mp
    apply isSome_leadByte?
    cases h <;> omega
  obtain ⟨⟨size, least, greatest⟩, hlead⟩ := hlead
  have hcases := leadByte?_cases b _ hlead
  dsimp only at hcases
  have hvalid : c.toNat < 0xD800 ∨ 0xDFFF < c.toNat := by
    rcases c.valid with h | h
    · exact .inl h
    · exact .inr h.1
  unfold readChar
  cases h with
  | one hv hb =>
      obtain rfl : size = 1 := by omega
      simp [hlead, hb]
  | @two _ b₁ hlow hhigh hb hb₁ =>
      obtain rfl : size = 2 := by omega
      have hcode : pushBits (b.toNat % 32) b₁ = c.toNat := by
        simp only [pushBits]
        omega
      have hrange : ¬ (b₁.toNat < least.toNat ∨ greatest.toNat < b₁.toNat) := by omega
      simp [hlead, hcode, UInt8.lt_iff_toNat_lt, hrange]
  | @three _ b₁ b₂ hlow hhigh hb hb₁ hb₂ =>
      obtain rfl : size = 3 := by omega
      have hcode : pushBits (pushBits (b.toNat % 16) b₁) b₂ = c.toNat := by
        simp only [pushBits]
        omega
      have hrange : ¬ (b₁.toNat < least.toNat ∨ greatest.toNat < b₁.toNat) := by omega
      have hb₂' : isContinuation b₂ = true := (isContinuation_iff b₂).mpr (by omega)
      simp [hlead, hcode, UInt8.lt_iff_toNat_lt, hrange, hb₂']
  | @four _ b₁ b₂ b₃ hlow hhigh hb hb₁ hb₂ hb₃ =>
      obtain rfl : size = 4 := by omega
      have hcode : pushBits (pushBits (pushBits (b.toNat % 8) b₁) b₂) b₃ = c.toNat := by
        simp only [pushBits]
        omega
      have hrange : ¬ (b₁.toNat < least.toNat ∨ greatest.toNat < b₁.toNat) := by omega
      have hb₂' : isContinuation b₂ = true := (isContinuation_iff b₂).mpr (by omega)
      have hb₃' : isContinuation b₃ = true := (isContinuation_iff b₃).mpr (by omega)
      simp [hlead, hcode, UInt8.lt_iff_toNat_lt, hrange, hb₂', hb₃']

/-! ## Whole texts -/

private theorem decodeFrom_utf8Bytes (cs : List Char) (start : Nat) :
    decodeFrom start (utf8Bytes cs) = .ok cs := by
  induction cs generalizing start with
  | nil => simp [decodeFrom]
  | cons c cs ih =>
      have hspells := spells_utf8EncodeChar c
      rw [utf8Bytes_cons]
      generalize String.utf8EncodeChar c = bytes at hspells
      cases bytes with
      | nil => cases hspells
      | cons b bs =>
          rw [List.cons_append, decodeFrom, readChar_of_spells hspells]
          simp [ih, Except.map]

theorem decode_utf8Bytes (cs : List Char) : decode (utf8Bytes cs) = .ok cs :=
  decodeFrom_utf8Bytes cs 0

private theorem eq_utf8Bytes_of_decodeFrom {start : Nat} {bytes : List UInt8} {cs : List Char}
    (h : decodeFrom start bytes = .ok cs) : bytes = utf8Bytes cs := by
  fun_induction decodeFrom start bytes generalizing cs with
  | case1 => simp_all
  | case2 => simp at h
  | case3 start b bs c extra hread ih =>
      cases hrest : decodeFrom (start + 1 + extra) (bs.drop extra) with
      | error fault => simp [hrest, Except.map] at h
      | ok cs' =>
          simp only [hrest, Except.map, Except.ok.injEq] at h
          subst h
          have hbytes := (spells_utf8EncodeChar c).unique (spells_of_readChar hread)
          rw [utf8Bytes_cons, hbytes, ← ih hrest, List.cons_append, List.take_append_drop]

theorem eq_utf8Bytes_of_decode {bytes : List UInt8} {cs : List Char}
    (h : decode bytes = .ok cs) : bytes = utf8Bytes cs := eq_utf8Bytes_of_decodeFrom h

end Stencil
