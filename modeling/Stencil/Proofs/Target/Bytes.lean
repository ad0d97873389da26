import Mathlib.Tactic.SplitIfs
import Stencil.Proofs.Target.Fragment
import Stencil.Proofs.Text.Utf8

/-!
# Scanning bytes

The scanner once more, on bytes: its place is an offset, and it moves on by bytes,
wherever characters end.  It always moves forward and never beyond the bytes.  On the
bytes of a text each of its tokens ends between two characters, and the tokens are
those of the text.
-/

namespace Stencil

namespace ByteScanner

/-! ## Bytes -/

def isBlank (b : UInt8) : Bool :=
  b == ' '.toUInt8 || b == '\t'.toUInt8 || b == '\n'.toUInt8 || b == '\x0c'.toUInt8 ||
    b == '\r'.toUInt8

def isWord (b : UInt8) : Bool :=
  ('0'.toUInt8 ≤ b && b ≤ '9'.toUInt8) || ('A'.toUInt8 ≤ b && b ≤ 'Z'.toUInt8) ||
    ('a'.toUInt8 ≤ b && b ≤ 'z'.toUInt8) || b == '_'.toUInt8 || 0x80 ≤ b

def width (lead : UInt8) : Nat :=
  if 0xF0 ≤ lead then 4 else if 0xE0 ≤ lead then 3 else if 0xC0 ≤ lead then 2 else 1

def opening? (b : UInt8) : Option Delimiter :=
  if b == '('.toUInt8 then some .paren
  else if b == '['.toUInt8 then some .bracket
  else if b == '\x7b'.toUInt8 then some .brace
  else none

def closing? (b : UInt8) : Option Delimiter :=
  if b == ')'.toUInt8 then some .paren
  else if b == ']'.toUInt8 then some .bracket
  else if b == '\x7d'.toUInt8 then some .brace
  else none

/-! ## Moves

Each of these gives the place to which the scanner moves from `pos`. -/

def skipWhile (bytes : List UInt8) (p : UInt8 → Bool) (pos : Nat) : Nat :=
  if h : pos < bytes.length then
    if p bytes[pos] then skipWhile bytes p (pos + 1) else pos
  else pos
  termination_by bytes.length - pos

/-- Behind an opening quote.  A backslash takes the next byte with it, even if that is
only the first of its character. -/
def skipQuoted (bytes : List UInt8) (quote : UInt8) (pos : Nat) : Nat :=
  if h : pos < bytes.length then
    if bytes[pos] == '\\'.toUInt8 then skipQuoted bytes quote (min (pos + 2) bytes.length)
    else if bytes[pos] == '\n'.toUInt8 then pos
    else if bytes[pos] == quote then pos + 1
    else skipQuoted bytes quote (pos + 1)
  else pos
  termination_by bytes.length - pos

def skipComment (bytes : List UInt8) (pos : Nat) : Nat :=
  if h : pos < bytes.length then
    if bytes[pos] == '*'.toUInt8 && bytes[pos + 1]? == some '/'.toUInt8 then pos + 2
    else skipComment bytes (pos + 1)
  else pos
  termination_by bytes.length - pos

def skipApostrophe (bytes : List UInt8) (pos : Nat) : LexemeKind × Nat :=
  match bytes[pos + 1]? with
  | none => (.literal, pos + 1)
  | some next =>
    if next != '\\'.toUInt8 && bytes[pos + 1 + width next]? == some '\''.toUInt8 then
      (.literal, pos + (width next + 2))
    else if next != '\\'.toUInt8 && isWord next then (.word, skipWhile bytes isWord (pos + 1))
    else (.literal, skipQuoted bytes '\''.toUInt8 (pos + 1))

def skipToken (bytes : List UInt8) (pos : Nat) (b : UInt8) : LexemeKind × Nat :=
  if isBlank b then (.blank, skipWhile bytes isBlank pos)
  else if b == '/'.toUInt8 && bytes[pos + 1]? == some '/'.toUInt8 then
    (.comment, skipWhile bytes (· != '\n'.toUInt8) pos)
  else if b == '/'.toUInt8 && bytes[pos + 1]? == some '*'.toUInt8 then
    (.comment, skipComment bytes (pos + 2))
  else if b == '"'.toUInt8 then (.literal, skipQuoted bytes b (pos + 1))
  else if b == '\''.toUInt8 then skipApostrophe bytes pos
  else if b == '\x60'.toUInt8 then
    (.literal, min (skipWhile bytes (· != '\x60'.toUInt8) (pos + 1) + 1) bytes.length)
  else if isWord b then (.word, skipWhile bytes isWord pos)
  else match opening? b, closing? b with
    | some d, _ => (.opening d, pos + 1)
    | none, some d => (.closing d, pos + 1)
    | none, none => (.punct, pos + 1)

/-! ## Progress -/

section

variable {bytes : List UInt8} {p : UInt8 → Bool} {quote b : UInt8} {pos : Nat}

theorem skipWhile_of_lt (hb : bytes[pos]? = some b) :
    skipWhile bytes p pos = if p b then skipWhile bytes p (pos + 1) else pos := by
  obtain ⟨hpos, rfl⟩ := List.getElem?_eq_some_iff.mp hb
  rw [skipWhile, dif_pos hpos]

theorem skipQuoted_of_lt (hb : bytes[pos]? = some b) :
    skipQuoted bytes quote pos =
      if b == '\\'.toUInt8 then skipQuoted bytes quote (min (pos + 2) bytes.length)
      else if b == '\n'.toUInt8 then pos
      else if b == quote then pos + 1
      else skipQuoted bytes quote (pos + 1) := by
  obtain ⟨hpos, rfl⟩ := List.getElem?_eq_some_iff.mp hb
  rw [skipQuoted, dif_pos hpos]

theorem skipComment_of_lt (hb : bytes[pos]? = some b) :
    skipComment bytes pos =
      if b == '*'.toUInt8 && bytes[pos + 1]? == some '/'.toUInt8 then pos + 2
      else skipComment bytes (pos + 1) := by
  obtain ⟨hpos, rfl⟩ := List.getElem?_eq_some_iff.mp hb
  rw [skipComment, dif_pos hpos]

theorem bounds_skipWhile (p : UInt8 → Bool) (hpos : pos ≤ bytes.length) :
    pos ≤ skipWhile bytes p pos ∧ skipWhile bytes p pos ≤ bytes.length := by
  fun_induction skipWhile bytes p pos with
  | case1 pos hlt _ ih =>
      have := ih hlt
      omega
  | case2 | case3 => omega

theorem bounds_skipQuoted (quote : UInt8) (hpos : pos ≤ bytes.length) :
    pos ≤ skipQuoted bytes quote pos ∧ skipQuoted bytes quote pos ≤ bytes.length := by
  fun_induction skipQuoted bytes quote pos with
  | case1 pos hlt _ ih =>
      have := ih (Nat.min_le_right _ _)
      omega
  | case2 | case3 | case5 => omega
  | case4 pos hlt _ _ _ ih =>
      have := ih hlt
      omega

theorem bounds_skipComment (hpos : pos ≤ bytes.length) :
    pos ≤ skipComment bytes pos ∧ skipComment bytes pos ≤ bytes.length := by
  fun_induction skipComment bytes pos with
  | case1 pos hlt hclosed =>
      simp only [Bool.and_eq_true, beq_iff_eq] at hclosed
      have := (List.getElem?_eq_some_iff.mp hclosed.2).1
      omega
  | case2 pos hlt _ ih =>
      have := ih hlt
      omega
  | case3 => omega

theorem lt_of_lookAhead {n : Nat} {a : UInt8} (h : (bytes[n]? == some a) = true) :
    n < bytes.length := by
  rw [beq_iff_eq] at h
  exact (List.getElem?_eq_some_iff.mp h).1

theorem bounds_skipApostrophe (hpos : pos < bytes.length) :
    pos < (skipApostrophe bytes pos).2 ∧ (skipApostrophe bytes pos).2 ≤ bytes.length := by
  unfold skipApostrophe
  split
  · dsimp only
    omega
  · rename_i next hnext
    have hlt : pos + 1 < bytes.length := (List.getElem?_eq_some_iff.mp hnext).1
    split
    · rename_i hclosed
      have := lt_of_lookAhead (Bool.and_eq_true_iff.mp hclosed).2
      dsimp only
      omega
    · split
      · have := bounds_skipWhile isWord (Nat.le_of_lt hlt)
        dsimp only
        omega
      · have := bounds_skipQuoted '\''.toUInt8 (Nat.le_of_lt hlt)
        dsimp only
        omega

theorem bounds_skipToken (hb : bytes[pos]? = some b) :
    pos < (skipToken bytes pos b).2 ∧ (skipToken bytes pos b).2 ≤ bytes.length := by
  have hpos : pos < bytes.length := (List.getElem?_eq_some_iff.mp hb).1
  have hwhile : ∀ p : UInt8 → Bool, p b = true →
      pos < skipWhile bytes p pos ∧ skipWhile bytes p pos ≤ bytes.length := by
    intro p hp
    rw [skipWhile_of_lt hb, if_pos hp]
    exact bounds_skipWhile p hpos
  unfold skipToken
  split
  · exact hwhile _ ‹_›
  · split
    · rename_i hslash
      refine hwhile _ ?_
      rw [beq_iff_eq.mp (Bool.and_eq_true_iff.mp hslash).1]
      decide
    · split
      · rename_i hstar
        have hlt := lt_of_lookAhead (Bool.and_eq_true_iff.mp hstar).2
        have := bounds_skipComment (show pos + 2 ≤ bytes.length by omega)
        dsimp only
        omega
      · split
        · exact bounds_skipQuoted b hpos
        · split
          · exact bounds_skipApostrophe hpos
          · split
            · have := bounds_skipWhile (· != '\x60'.toUInt8) (show pos + 1 ≤ bytes.length by omega)
              dsimp only
              omega
            · split
              · exact hwhile _ ‹_›
              · split <;> exact ⟨Nat.lt_succ_self pos, hpos⟩

end

def scanFrom (bytes : List UInt8) (pos : Nat) : List Target.Token :=
  if h : pos < bytes.length then
    let next := skipToken bytes pos bytes[pos]
    ⟨next.1, ⟨pos, next.2⟩⟩ :: scanFrom bytes next.2
  else []
  termination_by bytes.length - pos
  decreasing_by
    have := bounds_skipToken (List.getElem?_eq_getElem h)
    omega

/-! ## Characters -/

theorem utf8EncodeChar_cases (c : Char) :
    c.toNat < 0x80 ∧ String.utf8EncodeChar c = [UInt8.ofNat c.toNat] ∨
      0x80 ≤ c.toNat ∧ ∀ b ∈ String.utf8EncodeChar c, 0x80 ≤ b.toNat := by
  have hspells := spells_utf8EncodeChar c
  generalize c.toNat = v at hspells
  generalize String.utf8EncodeChar c = bytes at hspells
  cases hspells with
  | one hv hb => exact .inl ⟨by omega, by simp [← hb]⟩
  | two | three | four =>
      refine .inr ⟨by omega, ?_⟩
      simp only [List.forall_mem_cons, List.not_mem_nil, false_implies, implies_true, and_true]
      omega

theorem exists_lead (c : Char) :
    ∃ lead tail, String.utf8EncodeChar c = lead :: tail ∧ width lead = tail.length + 1 ∧
      ∀ b ∈ tail, 0x80 ≤ b.toNat := by
  have hspells := spells_utf8EncodeChar c
  generalize c.toNat = v at hspells
  generalize String.utf8EncodeChar c = bytes at hspells
  simp only [width, UInt8.le_iff_toNat_le, UInt8.reduceToNat]
  cases hspells with
  | one =>
      refine ⟨_, _, rfl, ?_, by simp⟩
      simp only [List.length_nil]
      split_ifs <;> omega
  | two | three | four =>
      refine ⟨_, _, rfl, ?_, ?_⟩
      · simp only [List.length_cons, List.length_nil]
        split_ifs <;> omega
      · simp only [List.forall_mem_cons, List.not_mem_nil, false_implies, implies_true, and_true]
        omega

/-- Of each byte of a character `p` says what `q` says of the character. -/
def Reflects {α : Type} (p : UInt8 → α) (q : Char → α) : Prop :=
  ∀ c, ∀ b ∈ String.utf8EncodeChar c, p b = q c

theorem reflects_of_ascii {α : Type} {p : UInt8 → α} {q : Char → α} {r : α}
    (hbyte : ∀ n : Fin 256, p (UInt8.ofNat n) = if n.val < 0x80 then q (Char.ofNat n) else r)
    (hchar : ∀ c, 0x80 ≤ c.toNat → q c = r) : Reflects p q := by
  intro c b hb
  have hp : p b = if b.toNat < 0x80 then q (Char.ofNat b.toNat) else r := by
    simpa using hbyte ⟨b.toNat, b.toNat_lt⟩
  rcases utf8EncodeChar_cases c with ⟨hascii, hone⟩ | ⟨hwide, hall⟩
  · rw [hone, List.mem_singleton] at hb
    have hcode : b.toNat = c.toNat := by
      rw [hb, UInt8.toNat_ofNat']
      omega
    rw [hp, hcode, if_pos hascii, Char.ofNat_toNat]
  · rw [hp, hchar c hwide, if_neg (Nat.not_lt.mpr (hall b hb))]

theorem ne_of_ascii {a c : Char} (ha : a.toNat < 0x80) (hc : 0x80 ≤ c.toNat) : c ≠ a := by
  rintro rfl
  omega

theorem reflects_isBlank : Reflects isBlank Stencil.isBlank := by
  refine reflects_of_ascii (r := false) (by decide +kernel) fun c hc => ?_
  simp only [Stencil.isBlank, Bool.or_eq_false_iff, beq_eq_false_iff_ne]
  refine ⟨⟨⟨⟨?_, ?_⟩, ?_⟩, ?_⟩, ?_⟩ <;> exact ne_of_ascii (by decide) hc

theorem reflects_isWord : Reflects isWord isWordChar :=
  reflects_of_ascii (r := true) (by decide +kernel) fun c hc => by simp [isWordChar, hc]

theorem reflects_opening? : Reflects opening? Delimiter.ofOpening? := by
  refine reflects_of_ascii (r := none) (by decide +kernel) fun c hc => ?_
  unfold Delimiter.ofOpening?
  split
  · exact absurd hc (by decide)
  · exact absurd hc (by decide)
  · exact absurd hc (by decide)
  · rfl

theorem reflects_closing? : Reflects closing? Delimiter.ofClosing? := by
  refine reflects_of_ascii (r := none) (by decide +kernel) fun c hc => ?_
  unfold Delimiter.ofClosing?
  split
  · exact absurd hc (by decide)
  · exact absurd hc (by decide)
  · exact absurd hc (by decide)
  · rfl

theorem toNat_toUInt8 {a : Char} (ha : a.toNat < 0x80) : a.toUInt8.toNat = a.toNat := by
  rw [Char.toUInt8, UInt32.toNat_toUInt8]
  exact Nat.mod_eq_of_lt (Nat.lt_trans ha (by decide))

theorem ne_toUInt8_of_wide {a : Char} (ha : a.toNat < 0x80) {b : UInt8} (hb : 0x80 ≤ b.toNat) :
    b ≠ a.toUInt8 := by
  rintro rfl
  rw [toNat_toUInt8 ha] at hb
  omega

theorem reflects_eq {a : Char} (ha : a.toNat < 0x80) :
    Reflects (· == a.toUInt8) (· == a) := by
  intro c b hb
  rw [Bool.eq_iff_iff, beq_iff_eq, beq_iff_eq, ← UInt8.toNat_inj, toNat_toUInt8 ha,
    ← Char.toNat_inj]
  rcases utf8EncodeChar_cases c with ⟨hascii, hone⟩ | ⟨hwide, hall⟩
  · rw [hone, List.mem_singleton] at hb
    rw [hb, UInt8.toNat_ofNat', Nat.mod_eq_of_lt (by omega)]
  · have := hall b hb
    omega

theorem utf8Size_of_ascii {a : Char} (ha : a.toNat < 0x80) : a.utf8Size = 1 :=
  Char.utf8Size_eq_one_iff.mpr (UInt32.le_iff_toNat_le.mpr (Nat.le_of_lt_succ ha))

theorem utf8Size_of_not_isWordChar {c : Char} (h : ¬ isWordChar c = true) : c.utf8Size = 1 := by
  simp only [isWordChar, Bool.or_eq_true, decide_eq_true_eq, not_or] at h
  exact utf8Size_of_ascii (by omega)

theorem reflects_ne {a : Char} (ha : a.toNat < 0x80) :
    Reflects (· != a.toUInt8) (· != a) :=
  fun c b hb => congrArg (! ·) (reflects_eq ha c b hb)

theorem ne_toUInt8 {a c : Char} (ha : a.toNat < 0x80) (hc : c ≠ a) :
    ∀ b ∈ String.utf8EncodeChar c, b ≠ a.toUInt8 := by
  intro b hb
  exact beq_eq_false_iff_ne.mp ((reflects_eq ha c b hb).trans (beq_eq_false_iff_ne.mpr hc))

/-! ## Places in a text -/

/-- From `pos` on the bytes are those of the text `cs`. -/
structure Stands (bytes : List UInt8) (pos : Nat) (cs : List Char) : Prop where
  pos_le : pos ≤ bytes.length
  drop_eq : bytes.drop pos = utf8Bytes cs

namespace Stands

variable {bytes : List UInt8} {pos : Nat} {c a : Char} {cs : List Char}

theorem start (cs : List Char) : Stands (utf8Bytes cs) 0 cs := ⟨Nat.zero_le _, rfl⟩

theorem length_eq (h : Stands bytes pos cs) : bytes.length = pos + byteLength cs := by
  have hdrop := congrArg List.length h.drop_eq
  rw [List.length_drop, length_utf8Bytes] at hdrop
  have := h.pos_le
  omega

theorem advance {front back : List Char} (h : Stands bytes pos (front ++ back)) :
    Stands bytes (pos + byteLength front) back := by
  constructor
  · have := h.length_eq
    rw [byteLength_append] at this
    omega
  · rw [← List.drop_drop, h.drop_eq, utf8Bytes_append, ← length_utf8Bytes, List.drop_left]

theorem tail (h : Stands bytes pos (c :: cs)) : Stands bytes (pos + c.utf8Size) cs := by
  have hc : Stands bytes pos ([c] ++ cs) := h
  simpa using hc.advance

theorem getElem?_add (h : Stands bytes pos cs) (n : Nat) :
    bytes[pos + n]? = (utf8Bytes cs)[n]? := by
  rw [← List.getElem?_drop, h.drop_eq]

theorem getElem?_lead (h : Stands bytes pos (c :: cs)) :
    ∃ lead ∈ String.utf8EncodeChar c, bytes[pos]? = some lead ∧ width lead = c.utf8Size := by
  obtain ⟨lead, tail, hbytes, hwidth, _⟩ := exists_lead c
  refine ⟨lead, by simp [hbytes], ?_, ?_⟩
  · simpa [hbytes] using h.getElem?_add 0
  · rw [hwidth, ← String.length_utf8EncodeChar, hbytes, List.length_cons]

theorem beq_head? (h : Stands bytes pos cs) (ha : a.toNat < 0x80) :
    (bytes[pos]? == some a.toUInt8) = (cs.head? == some a) := by
  cases cs with
  | nil =>
      have : bytes[pos]? = none := List.getElem?_eq_none (by simp [h.length_eq])
      simp [this]
  | cons c cs =>
      obtain ⟨lead, hlead, hb, _⟩ := h.getElem?_lead
      simpa [hb] using reflects_eq ha c lead hlead

theorem exists_char {text back : List Char} {i : Nat} (h : Stands bytes pos (text ++ back))
    (hpos : pos ≤ i) (hi : i < pos + byteLength text) :
    ∃ c ∈ text, ∃ b ∈ String.utf8EncodeChar c, bytes[i]? = some b := by
  have hget := h.getElem?_add (i - pos)
  have hlt : i - pos < (utf8Bytes text).length := by
    rw [length_utf8Bytes]
    omega
  rw [Nat.add_sub_cancel' hpos, utf8Bytes_append, List.getElem?_append_left hlt,
    List.getElem?_eq_getElem hlt] at hget
  obtain ⟨c, hc, hb⟩ := List.mem_flatMap.mp (List.getElem_mem hlt)
  exact ⟨c, hc, _, hb, hget⟩

theorem getElem?_ascii (h : Stands bytes pos (a :: cs)) (ha : a.toNat < 0x80) :
    bytes[pos]? = some a.toUInt8 := by
  simpa using h.beq_head? ha

theorem tail_ascii (h : Stands bytes pos (a :: cs)) (ha : a.toNat < 0x80) :
    Stands bytes (pos + 1) cs := by
  rw [← utf8Size_of_ascii ha]
  exact h.tail

end Stands

/-! ## Moves in a text -/

section

variable {bytes : List UInt8} {pos : Nat} {cs : List Char}

theorem pass {f : Nat → Nat} {P : UInt8 → Prop}
    (hstep : ∀ n b, bytes[n]? = some b → P b → f n = f (n + 1)) {run rest : List UInt8}
    (hdrop : bytes.drop pos = run ++ rest) (hrun : ∀ b ∈ run, P b) :
    f pos = f (pos + run.length) := by
  induction run generalizing pos with
  | nil => rfl
  | cons b run ih =>
      have hb : bytes[pos]? = some b := by
        rw [← List.head?_drop, hdrop]
        rfl
      have hnext : bytes.drop (pos + 1) = run ++ rest := by
        rw [← List.drop_drop, hdrop]
        rfl
      rw [hstep pos b hb (hrun b (by simp)), ih hnext (fun b' hb' => hrun b' (by simp [hb'])),
        List.length_cons, Nat.add_right_comm, Nat.add_assoc]

theorem Stands.pass {c : Char} {f : Nat → Nat} {P : UInt8 → Prop} (h : Stands bytes pos (c :: cs))
    (hstep : ∀ n b, bytes[n]? = some b → P b → f n = f (n + 1))
    (hP : ∀ b ∈ String.utf8EncodeChar c, P b) : f pos = f (pos + c.utf8Size) := by
  rw [← String.length_utf8EncodeChar]
  exact ByteScanner.pass hstep (by rw [h.drop_eq, utf8Bytes_cons]) hP

theorem skipWhile_eq {p : UInt8 → Bool} {q : Char → Bool} (hpq : Reflects p q)
    (h : Stands bytes pos cs) :
    skipWhile bytes p pos = pos + byteLength (cs.takeWhile q) := by
  induction cs generalizing pos with
  | nil =>
      have hend := h.length_eq
      rw [skipWhile, dif_neg (by simp at hend; omega)]
      rfl
  | cons c cs ih =>
      obtain ⟨lead, hlead, hb, _⟩ := h.getElem?_lead
      by_cases hc : q c = true
      · have hpass := h.pass (f := skipWhile bytes p) (P := fun b => p b = true)
          (fun n b hb hp => by rw [skipWhile_of_lt hb, if_pos hp])
          (fun b hb => (hpq c b hb).trans hc)
        rw [hpass, ih h.tail, List.takeWhile_cons_of_pos hc, byteLength_cons, Nat.add_assoc]
      · rw [skipWhile_of_lt hb, hpq c lead hlead, if_neg hc, List.takeWhile_cons_of_neg hc]
        rfl

theorem skipQuoted_succ {quote b : UInt8} (hb : bytes[pos]? = some b)
    (hplain : b ≠ '\\'.toUInt8 ∧ b ≠ '\n'.toUInt8 ∧ b ≠ quote) :
    skipQuoted bytes quote pos = skipQuoted bytes quote (pos + 1) := by
  simp [skipQuoted_of_lt hb, hplain]

/-- A backslash takes two bytes.  What is left of the second character is not ASCII, so the
scanner gets past it. -/
theorem skipQuoted_backslash {quote c : Char} (hascii : quote.toNat < 0x80)
    (h : Stands bytes pos ('\\' :: c :: cs)) :
    skipQuoted bytes quote.toUInt8 pos = skipQuoted bytes quote.toUInt8 (pos + 1 + c.utf8Size) := by
  have hc : Stands bytes (pos + 1) (c :: cs) := h.tail_ascii (by decide)
  obtain ⟨lead, tail, hbytes, _, htail⟩ := exists_lead c
  have hsize : c.utf8Size = tail.length + 1 := by
    rw [← String.length_utf8EncodeChar, hbytes, List.length_cons]
  have hend : min (pos + 2) bytes.length = pos + 1 + 1 := by
    have := hc.length_eq
    rw [byteLength_cons] at this
    omega
  have hdrop : bytes.drop (pos + 1 + 1) = tail ++ utf8Bytes cs := by
    rw [← List.drop_drop, hc.drop_eq, utf8Bytes_cons, hbytes]
    rfl
  rw [skipQuoted_of_lt (h.getElem?_ascii (by decide)), if_pos (beq_self_eq_true _), hend,
    pass (fun _ _ => skipQuoted_succ) hdrop fun b hb =>
      ⟨ne_toUInt8_of_wide (by decide) (htail b hb), ne_toUInt8_of_wide (by decide) (htail b hb),
        ne_toUInt8_of_wide hascii (htail b hb)⟩,
    hsize, ← Nat.add_assoc, Nat.add_right_comm (pos + 1)]

theorem skipQuoted_eq {quote : Char} (hascii : quote.toNat < 0x80) (h : Stands bytes pos cs) :
    skipQuoted bytes quote.toUInt8 pos = pos + byteLength (quotedRun quote cs) := by
  fun_induction quotedRun quote cs generalizing pos with
  | case1 =>
      have hend := h.length_eq
      rw [skipQuoted, dif_neg (by simp at hend; omega)]
      rfl
  | case2 =>
      have hend : bytes.length = pos + 1 := (h.tail_ascii (by decide)).length_eq
      rw [skipQuoted_of_lt (h.getElem?_ascii (by decide)), if_pos (beq_self_eq_true _), hend,
        Nat.min_eq_right (by omega), skipQuoted, dif_neg (by omega)]
      rfl
  | case3 c cs ih =>
      rw [skipQuoted_backslash hascii h, ih (h.tail_ascii (by decide)).tail, byteLength_cons,
        byteLength_cons, utf8Size_of_ascii (a := '\\') (by decide)]
      omega
  | case4 c cs _ _ hnewline =>
      rw [beq_iff_eq.mp hnewline] at h
      rw [skipQuoted_of_lt (h.getElem?_ascii (by decide))]
      rfl
  | case5 c cs hone htwo hnewline hquote =>
      obtain rfl : c = quote := beq_iff_eq.mp hquote
      obtain ⟨lead, hlead, hb, _⟩ := h.getElem?_lead
      have hslash := ne_toUInt8 (by decide) (ne_backslash hone htwo) lead hlead
      have hfeed := ne_toUInt8 (a := '\n') (by decide) (by simpa using hnewline) lead hlead
      rw [skipQuoted_of_lt hb, if_neg (by simpa using hslash), if_neg (by simpa using hfeed),
        if_pos ((reflects_eq hascii c lead hlead).trans hquote), byteLength_cons,
        utf8Size_of_ascii hascii]
      rfl
  | case6 c cs hone htwo hnewline hquote ih =>
      rw [h.pass (fun _ _ => skipQuoted_succ) fun b hb =>
          ⟨ne_toUInt8 (by decide) (ne_backslash hone htwo) b hb,
            ne_toUInt8 (by decide) (by simpa using hnewline) b hb,
            ne_toUInt8 hascii (by simpa using hquote) b hb⟩,
        ih h.tail, byteLength_cons, Nat.add_assoc]

theorem skipComment_eq (h : Stands bytes pos cs) :
    skipComment bytes pos = pos + byteLength (blockCommentRun cs) := by
  fun_induction blockCommentRun cs generalizing pos with
  | case1 =>
      have hend := h.length_eq
      rw [skipComment, dif_neg (by simp at hend; omega)]
      rfl
  | case2 cs =>
      have hslash : bytes[pos + 1]? = some '/'.toUInt8 :=
        (h.tail_ascii (by decide)).getElem?_ascii (by decide)
      rw [skipComment_of_lt (h.getElem?_ascii (by decide)), hslash]
      rfl
  | case3 c cs hopen ih =>
      have hpass : skipComment bytes pos = skipComment bytes (pos + c.utf8Size) := by
        by_cases hc : c = '*'
        · subst hc
          have hslash : (bytes[pos + 1]? == some '/'.toUInt8) = false := by
            rw [(h.tail_ascii (by decide)).beq_head? (by decide), beq_eq_false_iff_ne]
            intro hhead
            obtain ⟨rest, rfl⟩ := List.head?_eq_some_iff.mp hhead
            exact hopen rest rfl rfl
          rw [skipComment_of_lt (h.getElem?_ascii (by decide)), hslash, Bool.and_false]
          rfl
        · exact h.pass (P := (· ≠ '*'.toUInt8))
            (fun n b hb hne => by simp [skipComment_of_lt hb, hne])
            (ne_toUInt8 (by decide) hc)
      rw [hpass, ih h.tail, byteLength_cons, Nat.add_assoc]

theorem skipRaw_eq (h : Stands bytes pos cs) :
    min (skipWhile bytes (· != '\x60'.toUInt8) pos + 1) bytes.length =
      pos + byteLength (rawRun cs) := by
  induction cs generalizing pos with
  | nil =>
      have hend : bytes.length = pos := h.length_eq
      rw [skipWhile, dif_neg (by omega), hend]
      exact Nat.min_eq_right (Nat.le_succ pos)
  | cons c cs ih =>
      rw [rawRun]
      split
      · rename_i hquote
        rw [beq_iff_eq.mp hquote] at h
        have hlt := (h.tail_ascii (by decide)).pos_le
        rw [skipWhile_of_lt (h.getElem?_ascii (by decide)), if_neg (by decide),
          Nat.min_eq_left hlt, beq_iff_eq.mp hquote]
        rfl
      · rename_i hquote
        have hpass := h.pass (f := skipWhile bytes (· != '\x60'.toUInt8))
          (P := (· ≠ '\x60'.toUInt8))
          (fun n b hb hne => by simp [skipWhile_of_lt hb, hne])
          (ne_toUInt8 (by decide) (by simpa using hquote))
        rw [hpass, ih h.tail, byteLength_cons, Nat.add_assoc]

theorem skipApostrophe_eq (h : Stands bytes pos ('\'' :: cs)) :
    skipApostrophe bytes pos =
      ((apostropheRun cs).1, pos + byteLength ('\'' :: (apostropheRun cs).2)) := by
  have hrest : Stands bytes (pos + 1) cs := h.tail_ascii (by decide)
  rw [byteLength_cons, utf8Size_of_ascii (by decide), ← Nat.add_assoc]
  cases cs with
  | nil =>
      have hnone : bytes[pos + 1]? = none := by
        simpa using hrest.getElem?_add 0
      simp only [skipApostrophe, hnone]
      rfl
  | cons c cs =>
      obtain ⟨lead, hlead, hb, hwidth⟩ := hrest.getElem?_lead
      have hslash := reflects_ne (a := '\\') (by decide) c lead hlead
      have hword := reflects_isWord c lead hlead
      have hquote := hrest.tail.beq_head? (a := '\'') (by decide)
      dsimp only at hslash
      simp only [skipApostrophe, hb, apostropheRun, hslash, hword, hwidth, hquote]
      split_ifs
      · simp [utf8Size_of_ascii (a := '\'') (by decide)]
        omega
      · rw [skipWhile_eq reflects_isWord hrest]
      · rw [skipQuoted_eq (by decide) hrest]

theorem mark_eq {a c d : Char} (ha : a.toNat < 0x80) (hd : d.toNat < 0x80)
    (h : Stands bytes pos (c :: cs)) {b : UInt8} (hb : b ∈ String.utf8EncodeChar c) :
    (b == a.toUInt8 && bytes[pos + 1]? == some d.toUInt8) = (c == a && cs.head? == some d) := by
  rw [show (b == a.toUInt8) = (c == a) from reflects_eq ha c b hb]
  by_cases hc : c = a
  · subst hc
    rw [(h.tail_ascii ha).beq_head? hd]
  · rw [beq_eq_false_iff_ne.mpr hc, Bool.false_and, Bool.false_and]

theorem skipToken_eq {c : Char} {b : UInt8} (h : Stands bytes pos (c :: cs))
    (hb : bytes[pos]? = some b) :
    skipToken bytes pos b =
      ((lexemeRun c cs).1, pos + byteLength (c :: (lexemeRun c cs).2)) := by
  have hmem : b ∈ String.utf8EncodeChar c := by
    obtain ⟨lead, hlead, hb', _⟩ := h.getElem?_lead
    rw [hb, Option.some.injEq] at hb'
    exact hb' ▸ hlead
  have heq : ∀ a : Char, a.toNat < 0x80 → (b == a.toUInt8) = (c == a) :=
    fun a ha => reflects_eq ha c b hmem
  have hfrom : ∀ q : Char → Bool, q c = true →
      byteLength ((c :: cs).takeWhile q) = byteLength (c :: cs.takeWhile q) := by
    intro q hq
    rw [List.takeWhile_cons_of_pos hq]
  -- Each test of the lead byte becomes the test of its character, so both branch alike.
  simp only [skipToken, lexemeRun, reflects_isBlank c b hmem, reflects_isWord c b hmem,
    reflects_opening? c b hmem, reflects_closing? c b hmem,
    mark_eq (a := '/') (d := '/') (by decide) (by decide) h hmem,
    mark_eq (a := '/') (d := '*') (by decide) (by decide) h hmem,
    heq '"' (by decide), heq '\'' (by decide), heq '\x60' (by decide)]
  split
  · rename_i hblank
    rw [skipWhile_eq reflects_isBlank h, hfrom _ hblank]
  · split
    · rename_i hslash
      rw [skipWhile_eq (reflects_ne (by decide)) h, hfrom]
      rw [beq_iff_eq.mp (Bool.and_eq_true_iff.mp hslash).1]
      decide
    · split
      · rename_i hstar
        rw [Bool.and_eq_true_iff, beq_iff_eq, beq_iff_eq] at hstar
        obtain ⟨rfl, hhead⟩ := hstar
        obtain ⟨rest, rfl⟩ := List.head?_eq_some_iff.mp hhead
        have hrest := (h.tail_ascii (by decide)).tail_ascii (by decide)
        rw [skipComment_eq hrest]
        simp [utf8Size_of_ascii (a := '/') (by decide), utf8Size_of_ascii (a := '*') (by decide)]
        omega
      · split
        · rename_i hquote
          obtain rfl := beq_iff_eq.mp hquote
          obtain rfl : b = '"'.toUInt8 := beq_iff_eq.mp ((heq _ (by decide)).trans hquote)
          rw [skipQuoted_eq (by decide) (h.tail_ascii (by decide)), byteLength_cons,
            utf8Size_of_ascii (by decide), Nat.add_assoc]
        · split
          · rename_i hquote
            obtain rfl := beq_iff_eq.mp hquote
            exact skipApostrophe_eq h
          · split
            · rename_i hquote
              obtain rfl := beq_iff_eq.mp hquote
              rw [skipRaw_eq (h.tail_ascii (by decide)), byteLength_cons,
                utf8Size_of_ascii (by decide), Nat.add_assoc]
            · split
              · rename_i hword
                rw [skipWhile_eq reflects_isWord h, hfrom _ hword]
              · rename_i hword
                cases Delimiter.ofOpening? c <;> cases Delimiter.ofClosing? c <;>
                  simp [utf8Size_of_not_isWordChar hword]

/-- By bytes the scanner reads the same tokens as by characters. -/
theorem scanFrom_eq (h : Stands bytes pos cs) :
    scanFrom bytes pos = Target.place pos (lexemes cs) := by
  fun_induction lexemes cs generalizing pos with
  | case1 =>
      have hend := h.length_eq
      rw [scanFrom, dif_neg (by simp at hend; omega)]
      rfl
  | case2 c cs run =>
      rename_i ih
      obtain ⟨lead, _, hb, _⟩ := h.getElem?_lead
      have hcs : (c :: run.2) ++ cs.drop run.2.length = c :: cs := by
        rw [List.cons_append, List.prefix_iff_eq_append.mp (lexemeRun_isPrefix c cs)]
      have hnext := ih (hcs.symm ▸ h).advance
      obtain ⟨hlt, rfl⟩ := List.getElem?_eq_some_iff.mp hb
      rw [scanFrom, dif_pos hlt]
      simp only [skipToken_eq h hb, Target.place]
      rw [← hnext]

theorem scanFrom_eq_scan (source : String) :
    scanFrom (utf8Bytes source.toList) 0 = Target.scan source :=
  scanFrom_eq (.start _)

end

end ByteScanner

end Stencil
