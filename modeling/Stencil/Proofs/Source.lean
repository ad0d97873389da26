import Mathlib.Data.List.DropRight
import Mathlib.Tactic.SplitIfs
import Stencil.Proofs.Text.Utf8
import Stencil.Source

/-!
# Places in a source

Looked up in the table, a place counts the line feeds before an offset and the characters
since the last of them, and the table is never left.  The place moves on with the offset,
and it moves on for good wherever a character starts.
-/

namespace Stencil

def Location.Before (p q : Location) : Prop :=
  p.line < q.line ∨ p.line = q.line ∧ p.column < q.column

theorem Location.before_or_eq {p q : Location} (h : ¬ q.Before p) : p.Before q ∨ p = q := by
  cases p
  cases q
  simp only [Before, mk.injEq] at h ⊢
  omega

theorem Location.Before.ne {p q : Location} (h : p.Before q) : p ≠ q := by
  rintro rfl
  simp [Before] at h

/-- The offsets between the characters of a text, both its ends included. -/
def boundaries (cs : List Char) : Set Nat :=
  {offset | ∃ front back, cs = front ++ back ∧ byteLength front = offset}

namespace SourceFile

/-- The bytes between the start of a line and an offset in it. -/
def lineFront (f : SourceFile) (offset : Nat) : List UInt8 :=
  (f.content.take offset).rtakeWhile (· != 10)

/-! ## One byte more -/

theorem location_eq_line (f : SourceFile) (offset : Nat) :
    f.location offset = ⟨(f.startsUpTo offset).length,
      ((f.content.take offset).drop (f.lineStart offset)).countP fun b => !isContinuation b⟩ :=
  Option.get_of_eq_some _ (location?_eq f offset)

theorem startsUpTo_succ (f : SourceFile) {offset : Nat} (h : offset < f.content.length) :
    f.startsUpTo (offset + 1) = f.startsUpTo offset ++
      if f.content[offset] == 10 && offset + 1 < f.content.length then [offset + 1] else [] := by
  have hlength : (f.content.take offset).length = offset := by
    rw [List.length_take]
    omega
  simp only [startsUpTo, startsBehind, List.take_succ_eq_append_getElem h, List.zipIdx_append,
    List.filter_append, List.map_append, List.cons_append, hlength, Nat.zero_add]
  congr 2
  cases hfeed : f.content[offset] == 10 && offset + 1 < f.content.length <;> simp_all

/-- One byte starts a line, belongs to the character before, or is one column more. -/
theorem location_succ (f : SourceFile) {offset : Nat} (h : offset < f.content.length) :
    f.location (offset + 1) =
      if f.content[offset] == 10 && offset + 1 < f.content.length then
        ⟨(f.location offset).line + 1, 0⟩
      else if isContinuation f.content[offset] then f.location offset
      else ⟨(f.location offset).line, (f.location offset).column + 1⟩ := by
  have hstarts := startsUpTo_succ f h
  simp only [location_eq_line]
  cases hfeed : f.content[offset] == 10 && offset + 1 < f.content.length with
  | true =>
      rw [hfeed, if_pos rfl] at hstarts
      have hstart : f.lineStart (offset + 1) = offset + 1 := by simp [lineStart, hstarts]
      rw [hstart, hstarts, if_pos rfl, List.drop_take, Nat.sub_self]
      simp
  | false =>
      rw [hfeed, if_neg Bool.false_ne_true, List.append_nil] at hstarts
      have hstart : f.lineStart (offset + 1) = f.lineStart offset := by rw [lineStart, hstarts]; rfl
      have hle : f.lineStart offset ≤ (f.content.take offset).length := by
        rw [List.length_take]
        exact f.lineStart_le offset
      rw [hstart, hstarts, if_neg Bool.false_ne_true, List.take_succ_eq_append_getElem h,
        List.drop_append_of_le_length hle, List.countP_append, List.countP_singleton]
      cases isContinuation f.content[offset] <;> simp

theorem location_of_length_le (f : SourceFile) {offset : Nat} (h : f.content.length ≤ offset) :
    f.location (offset + 1) = f.location offset := by
  simp only [location_eq_line, lineStart, startsUpTo, List.take_of_length_le h,
    List.take_of_length_le (Nat.le_succ_of_le h)]

/-! ## Order -/

theorem not_before_location_succ (f : SourceFile) (offset : Nat) :
    ¬ (f.location (offset + 1)).Before (f.location offset) := by
  rcases Nat.lt_or_ge offset f.content.length with h | h
  · rw [location_succ f h]
    split_ifs <;> simp [Location.Before]
  · rw [location_of_length_le f h]
    simp [Location.Before]

theorem before_location_succ (f : SourceFile) {offset : Nat} (h : offset < f.content.length)
    (hb : isContinuation f.content[offset] = false) :
    (f.location offset).Before (f.location (offset + 1)) := by
  rw [location_succ f h, hb, if_neg Bool.false_ne_true]
  split_ifs <;> simp [Location.Before]

theorem not_before_location_add (f : SourceFile) (offset count : Nat) :
    ¬ (f.location (offset + count)).Before (f.location offset) := by
  induction count with
  | zero => simp [Location.Before]
  | succ count ih =>
      have hstep := not_before_location_succ f (offset + count)
      rw [Nat.add_assoc] at hstep
      simp only [Location.Before] at ih hstep ⊢
      omega

theorem location_before {f : SourceFile} {front middle back : List Char}
    (hcontent : f.content = utf8Bytes (front ++ (middle ++ back))) (hmiddle : middle ≠ []) :
    (f.location (byteLength front)).Before
      (f.location (byteLength front + byteLength middle)) := by
  obtain ⟨c, cs, rfl⟩ := List.exists_cons_of_ne_nil hmiddle
  obtain ⟨lead, tail, hc, hlead, _⟩ := exists_lead_tail c
  obtain ⟨n, hn⟩ := Nat.exists_eq_add_one_of_ne_zero (Nat.ne_of_gt (byteLength_pos hmiddle))
  have hdrop : f.content.drop (byteLength front) =
      lead :: (tail ++ utf8Bytes (cs ++ back)) := by
    rw [hcontent, utf8Bytes_append, ← length_utf8Bytes, List.drop_left, List.cons_append,
      utf8Bytes_cons, hc]
    rfl
  have hlt : byteLength front < f.content.length := by
    have hlength := congrArg List.length hdrop
    rw [List.length_drop, List.length_cons] at hlength
    omega
  rw [List.drop_eq_getElem_cons hlt, List.cons.injEq] at hdrop
  have hfirst := before_location_succ f hlt (by rw [hdrop.1, hlead])
  have hrest := not_before_location_add f (byteLength front + 1) n
  rw [hn, Nat.add_comm n 1, ← Nat.add_assoc]
  simp only [Location.Before] at hfirst hrest ⊢
  omega

/-! ## Lines and columns -/

theorem lineFront_succ (f : SourceFile) {offset : Nat} (h : offset < f.content.length) :
    f.lineFront (offset + 1) =
      if f.content[offset] == 10 then [] else f.lineFront offset ++ [f.content[offset]] := by
  rw [lineFront, List.take_succ_eq_append_getElem h, List.rtakeWhile_concat]
  cases hfeed : f.content[offset] == 10 <;> simp [bne, hfeed, lineFront]

theorem location_eq (f : SourceFile) {offset : Nat} (h : offset < f.content.length) :
    f.location offset =
      ⟨1 + (f.content.take offset).count 10,
        (f.lineFront offset).countP fun b => !isContinuation b⟩ := by
  induction offset with
  | zero => simp [location_eq_line, startsUpTo, startsBehind, lineFront]
  | succ offset ih =>
      rw [location_succ f (by omega), ih (by omega), lineFront_succ f (by omega),
        List.take_succ_eq_append_getElem (by omega), List.count_append, List.count_singleton,
        decide_eq_true h, Bool.and_true]
      cases hfeed : f.content[offset] == 10 with
      | true => simp [Nat.add_assoc]
      | false => cases hcontinues : isContinuation f.content[offset] <;> simp [hcontinues]

theorem location_le (f : SourceFile) {m n : Nat} (h : m ≤ n) :
    (f.location m).Before (f.location n) ∨ f.location m = f.location n := by
  have hlater := not_before_location_add f m (n - m)
  rw [Nat.add_sub_cancel' h] at hlater
  exact Location.before_or_eq hlater

theorem location_lt {f : SourceFile} {cs : List Char} (htext : f.text? = .ok cs) {m n : Nat}
    (hm : m ∈ boundaries cs) (hn : n ∈ boundaries cs) (h : m < n) :
    (f.location m).Before (f.location n) := by
  obtain ⟨front, rest, rfl, rfl⟩ := hm
  obtain ⟨front', back, hwhole, rfl⟩ := hn
  rcases List.append_eq_append_iff.mp hwhole with ⟨middle, rfl, rfl⟩ | ⟨middle, rfl, _⟩
  · have hmiddle : middle ≠ [] := by
      rintro rfl
      simp at h
    rw [byteLength_append]
    exact location_before (eq_utf8Bytes_of_decode htext) hmiddle
  · rw [byteLength_append] at h
    omega

/-- The place of an offset is found in the table, and its line is never cut wrongly.  A line
is one more than the line feeds before an offset, and a column counts the characters since
then.  A later offset never comes to an earlier place, also where both lie beyond the end,
and in a text the places between the characters all differ. -/
theorem location_line_column (f : SourceFile) :
    (∀ offset, f.location? offset = some (f.location offset)) ∧
      (∀ offset < f.content.length,
        (f.location offset).line = 1 + (f.content.take offset).count 10 ∧
          (f.location offset).column =
            (f.lineFront offset).countP fun b => !isContinuation b) ∧
      (∀ m n, m ≤ n → (f.location m).Before (f.location n) ∨ f.location m = f.location n) ∧
      ∀ cs, f.text? = .ok cs → ∀ m ∈ boundaries cs, ∀ n ∈ boundaries cs,
        (m < n → (f.location m).Before (f.location n)) ∧
          (f.location m = f.location n → m = n) := by
  refine ⟨fun offset => (Option.some_get _).symm, ?_, fun m n => location_le f, ?_⟩
  · intro offset h
    simp [location_eq f h]
  · intro cs htext m hm n hn
    refine ⟨location_lt htext hm hn, ?_⟩
    intro hsame
    rcases Nat.lt_trichotomy m n with hlt | heq | hlt
    · exact absurd hsame (location_lt htext hm hn hlt).ne
    · exact heq
    · exact absurd hsame.symm (location_lt htext hn hm hlt).ne

/-- Byte 6 is the second letter of the third line.  The line feed behind it starts no line,
so the end is one column on. -/
theorem location_line_column_blank_line :
    let f : SourceFile := ⟨"a.go", utf8Bytes ['é', '\n', '\n', 'é', 'x', '\n']⟩
    (6 < f.content.length ∧ (f.location 6).line = 1 + 2 ∧ (f.location 6).column = 1) ∧
      (8 ≤ 9 ∧ ((f.location 8).Before (f.location 9) ∨ f.location 8 = f.location 9)) ∧
      f.text? = .ok ['é', '\n', '\n', 'é', 'x', '\n'] ∧
      7 ∈ boundaries ['é', '\n', '\n', 'é', 'x', '\n'] ∧
      8 ∈ boundaries ['é', '\n', '\n', 'é', 'x', '\n'] ∧
      (f.location 7).Before (f.location 8) := by
  intro f
  obtain ⟨_, hplace, hle, hlt⟩ := location_line_column f
  have htext : f.text? = .ok ['é', '\n', '\n', 'é', 'x', '\n'] := by decide +kernel
  have hlast : 7 ∈ boundaries ['é', '\n', '\n', 'é', 'x', '\n'] :=
    ⟨['é', '\n', '\n', 'é', 'x'], ['\n'], rfl, rfl⟩
  have hend : 8 ∈ boundaries ['é', '\n', '\n', 'é', 'x', '\n'] :=
    ⟨['é', '\n', '\n', 'é', 'x', '\n'], [], rfl, rfl⟩
  have hinside : 6 < f.content.length := by decide
  exact ⟨⟨hinside, hplace 6 hinside⟩, ⟨by decide, hle 8 9 (by decide)⟩, htext, hlast, hend,
    (hlt _ htext 7 hlast 8 hend).1 (by decide)⟩

end SourceFile

end Stencil
