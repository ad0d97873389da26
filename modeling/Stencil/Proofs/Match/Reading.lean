import Stencil.Match.Segment
import Stencil.Proofs.Target.Tiling

/-!
# Reading text

What it means for literal text to take a piece of the source: each run of blanks
of the text takes a whole run of blanks, everything else is taken as it is.  The
reader of segments finds exactly the tokens at which such a piece ends.
-/

namespace Stencil

def BeginsPlain (cs : List Char) : Prop := ∀ c ∈ cs.head?, isBlank c = false

/-- `content` takes `taken` where `rest` follows. -/
inductive Reads : List Char → List Char → List Char → Prop where
  | nil (rest : List Char) : Reads [] [] rest
  | plain {c : Char} {content taken rest : List Char} (hc : isBlank c = false)
      (h : Reads content taken rest) : Reads (c :: content) (c :: taken) rest
  /-- A run of blanks takes the whole run that stands in the source. -/
  | blanks {c : Char} {content blanks taken rest : List Char} (hc : isBlank c = true)
      (hblanks : isBlankRun blanks = true) (hplain : BeginsPlain (taken ++ rest))
      (h : Reads (content.dropWhile isBlank) taken rest) :
      Reads (c :: content) (blanks ++ taken) rest

inductive SegmentsRead : List Segment → List Char → List Char → Prop where
  | nil (rest : List Char) : SegmentsRead [] [] rest
  | literal {text : List Char} {segs : List Segment} {taken rest : List Char}
      (h : SegmentsRead segs taken rest) :
      SegmentsRead (.literal text :: segs) (text ++ taken) rest
  | blank {segs : List Segment} {blanks taken rest : List Char}
      (hblanks : isBlankRun blanks = true) (hplain : BeginsPlain (taken ++ rest))
      (h : SegmentsRead segs taken rest) : SegmentsRead (.blank :: segs) (blanks ++ taken) rest

/-! ## Segments of a text -/

theorem segments_blank {c : Char} (hc : isBlank c = true) (cs : List Char) :
    segments (c :: cs) = .blank :: segments (cs.dropWhile isBlank) := by
  induction cs generalizing c with
  | nil => simp [segments, hc]
  | cons c' cs ih =>
      rw [segments, if_pos hc]
      by_cases hc' : isBlank c' = true
      · rw [ih hc', List.dropWhile_cons_of_pos hc']
      · rw [List.dropWhile_cons_of_neg hc']
        split
        · rename_i rest hsegs
          rw [segments, if_neg hc'] at hsegs
          split at hsegs <;> simp at hsegs
        · rfl

theorem segmentsRead_plain_iff {c : Char} (hc : isBlank c = false) {cs taken rest : List Char} :
    SegmentsRead (segments (c :: cs)) taken rest ↔
      ∃ taken', taken = c :: taken' ∧ SegmentsRead (segments cs) taken' rest := by
  rw [segments, if_neg (by simp [hc])]
  split
  · rename_i text segs hsegs
    rw [hsegs]
    constructor
    · intro h
      cases h with
      | @literal _ _ taken _ h => exact ⟨text ++ taken, rfl, .literal h⟩
    · rintro ⟨taken', rfl, h⟩
      cases h with
      | @literal _ _ taken _ h => exact .literal h
  · constructor
    · intro h
      cases h with
      | @literal _ _ taken _ h => exact ⟨taken, rfl, h⟩
    · rintro ⟨taken', rfl, h⟩
      exact .literal h

theorem segmentsRead_iff {content taken rest : List Char} :
    SegmentsRead (segments content) taken rest ↔ Reads content taken rest := by
  induction hn : content.length using Nat.strongRecOn generalizing content taken with
  | ind n ih =>
      cases content with
      | nil =>
          constructor
          · intro h
            cases h
            exact .nil rest
          · intro h
            cases h
            exact .nil rest
      | cons c cs =>
          simp only [List.length_cons] at hn
          cases hc : isBlank c with
          | false =>
              rw [segmentsRead_plain_iff hc]
              constructor
              · rintro ⟨taken', rfl, h⟩
                exact .plain hc ((ih _ (by omega) rfl).mp h)
              · intro h
                cases h with
                | plain _ h => exact ⟨_, rfl, (ih _ (by omega) rfl).mpr h⟩
                | blanks hc' => simp [hc] at hc'
          | true =>
              have hshort : (cs.dropWhile isBlank).length < n := by
                have := (List.dropWhile_suffix (l := cs) isBlank).length_le
                omega
              rw [segments_blank hc]
              constructor
              · intro h
                cases h with
                | blank hblanks hplain h => exact .blanks hc hblanks hplain ((ih _ hshort rfl).mp h)
              · intro h
                cases h with
                | plain hc' => simp [hc] at hc'
                | blanks _ hblanks hplain h => exact .blank hblanks hplain ((ih _ hshort rfl).mpr h)

/-! ## The reader

It sees `window ++ beyond` and has room for `window`. -/

theorem readLiteral?_eq_some_iff {text window beyond unread : List Char} {left : Nat} :
    readLiteral? text (window ++ beyond) (byteLength window) = some (unread, left) ↔
      ∃ rest, window = text ++ rest ∧ unread = rest ++ beyond ∧ left = byteLength rest := by
  induction text generalizing window with
  | nil =>
      simp only [readLiteral?, Option.some.injEq, Prod.mk.injEq, List.nil_append]
      constructor
      · rintro ⟨rfl, rfl⟩
        exact ⟨window, rfl, rfl, rfl⟩
      · rintro ⟨rest, rfl, rfl, rfl⟩
        exact ⟨rfl, rfl⟩
  | cons l ls ih =>
      cases window with
      | nil =>
          have hpos := l.utf8Size_pos
          cases beyond with
          | nil => simp [readLiteral?]
          | cons c cs =>
              simp only [List.nil_append, readLiteral?, byteLength_nil]
              rw [if_neg (by rintro ⟨rfl, hfits⟩; omega)]
              simp
      | cons c cs =>
          rw [List.cons_append, readLiteral?]
          by_cases hl : l = c
          · subst hl
            rw [if_pos ⟨rfl, by simp⟩, byteLength_cons, Nat.add_sub_cancel_left, ih]
            simp
          · rw [if_neg (fun h => hl h.1)]
            simp only [reduceCtorEq, List.cons_append, List.cons.injEq, false_iff]
            rintro ⟨rest, ⟨rfl, _⟩, _⟩
            exact hl rfl

theorem skipBlanks_window (window beyond : List Char) :
    skipBlanks (window ++ beyond) (byteLength window) =
      (window.dropWhile isBlank ++ beyond, byteLength (window.dropWhile isBlank)) := by
  induction window with
  | nil =>
      cases beyond with
      | nil => rfl
      | cons c cs =>
          have := c.utf8Size_pos
          simp only [List.nil_append, skipBlanks, byteLength_nil]
          rw [if_neg (by rintro ⟨_, hfits⟩; omega)]
          rfl
  | cons c cs ih =>
      rw [List.cons_append, skipBlanks]
      by_cases hc : isBlank c = true
      · rw [if_pos ⟨hc, by simp⟩, byteLength_cons, Nat.add_sub_cancel_left, ih,
          List.dropWhile_cons_of_pos hc]
      · rw [if_neg (fun h => hc h.1), List.dropWhile_cons_of_neg hc, List.cons_append]

theorem blanks_append_iff {window blanks taken : List Char} (hblanks : blanks.all isBlank = true)
    (hplain : BeginsPlain taken) : window = blanks ++ taken ↔
      blanks = window.takeWhile isBlank ∧ taken = window.dropWhile isBlank := by
  constructor
  · rintro rfl
    have hall : ∀ c ∈ blanks, isBlank c = true := List.all_eq_true.mp hblanks
    rw [List.takeWhile_append_of_pos hall, List.dropWhile_append_of_pos hall]
    cases taken with
    | nil => simp
    | cons c cs =>
        have hc := hplain c rfl
        simp [hc]
  · rintro ⟨rfl, rfl⟩
    exact List.takeWhile_append_dropWhile.symm

theorem beginsPlain_dropWhile (cs : List Char) : BeginsPlain (cs.dropWhile isBlank) := by
  intro c hc
  have := List.head?_dropWhile_not isBlank cs
  simp_all

theorem BeginsPlain.dropWhile_eq {cs : List Char} (h : BeginsPlain cs) :
    cs.dropWhile isBlank = cs := by
  cases cs with
  | nil => rfl
  | cons c cs => exact List.dropWhile_cons_of_neg (by simp [h c rfl])

theorem BeginsPlain.of_append {cs rest : List Char} (h : BeginsPlain (cs ++ rest)) :
    BeginsPlain cs := by
  cases cs with
  | nil => simp [BeginsPlain]
  | cons c cs => simpa [BeginsPlain] using h

theorem readSegments?_literal_iff {text : List Char} {segs : List Segment}
    {window beyond : List Char} {r : List Char × Nat} :
    readSegments? (.literal text :: segs) (window ++ beyond) (byteLength window) = some r ↔
      ∃ rest, window = text ++ rest ∧
        readSegments? segs (rest ++ beyond) (byteLength rest) = some r := by
  rw [readSegments?]
  constructor
  · intro h
    split at h
    · simp at h
    · rename_i cs room hsome
      obtain ⟨rest, hwindow, rfl, rfl⟩ := readLiteral?_eq_some_iff.mp hsome
      exact ⟨rest, hwindow, h⟩
  · rintro ⟨rest, hwindow, h⟩
    rw [readLiteral?_eq_some_iff.mpr ⟨rest, hwindow, rfl, rfl⟩]
    exact h

theorem readSegments?_blank_iff {segs : List Segment} {window beyond : List Char}
    {r : List Char × Nat} :
    readSegments? (.blank :: segs) (window ++ beyond) (byteLength window) = some r ↔
      window.takeWhile isBlank ≠ [] ∧
        readSegments? segs (window.dropWhile isBlank ++ beyond)
          (byteLength (window.dropWhile isBlank)) = some r := by
  have hlength := congrArg byteLength (@List.takeWhile_append_dropWhile _ isBlank window)
  rw [byteLength_append] at hlength
  rw [readSegments?, skipBlanks_window]
  dsimp only
  by_cases hnil : window.takeWhile isBlank = []
  · rw [hnil, byteLength_nil] at hlength
    rw [if_pos (by omega)]
    simp [hnil]
  · have hpos := byteLength_pos hnil
    rw [if_neg (by omega)]
    exact (and_iff_right hnil).symm

theorem readSegments?_eq_some_iff {segs : List Segment} {window beyond unread : List Char}
    {left : Nat} :
    readSegments? segs (window ++ beyond) (byteLength window) = some (unread, left) ↔
      ∃ taken rest, window = taken ++ rest ∧ SegmentsRead segs taken rest ∧
        unread = rest ++ beyond ∧ left = byteLength rest := by
  induction segs generalizing window with
  | nil =>
      simp only [readSegments?, Option.some.injEq, Prod.mk.injEq]
      constructor
      · rintro ⟨rfl, rfl⟩
        exact ⟨[], window, rfl, .nil window, rfl, rfl⟩
      · rintro ⟨taken, rest, rfl, h, rfl, rfl⟩
        cases h
        exact ⟨rfl, rfl⟩
  | cons seg segs ih =>
      cases seg with
      | literal text =>
          rw [readSegments?_literal_iff]
          constructor
          · rintro ⟨rest, rfl, h⟩
            obtain ⟨taken, rest, rfl, hreads, rfl, rfl⟩ := ih.mp h
            exact ⟨text ++ taken, rest, (List.append_assoc ..).symm, .literal hreads, rfl, rfl⟩
          · rintro ⟨taken, rest, rfl, h, rfl, rfl⟩
            cases h with
            | @literal _ _ taken _ h =>
                exact ⟨taken ++ rest, List.append_assoc .., ih.mpr ⟨taken, rest, rfl, h, rfl, rfl⟩⟩
      | blank =>
          rw [readSegments?_blank_iff]
          constructor
          · rintro ⟨hne, h⟩
            obtain ⟨taken, rest, hdrop, hreads, rfl, rfl⟩ := ih.mp h
            refine ⟨window.takeWhile isBlank ++ taken, rest, ?_, .blank ?_ ?_ hreads, rfl, rfl⟩
            · rw [List.append_assoc, ← hdrop, List.takeWhile_append_dropWhile]
            · simp [isBlankRun, hne, List.all_takeWhile]
            · rw [← hdrop]
              exact beginsPlain_dropWhile window
          · rintro ⟨taken, rest, rfl, h, rfl, rfl⟩
            cases h with
            | @blank _ blanks taken _ hblanks hplain h =>
                simp only [isBlankRun, Bool.and_eq_true, Bool.not_eq_true',
                  List.isEmpty_eq_false_iff] at hblanks
                obtain ⟨hfront, hback⟩ :=
                  (blanks_append_iff hblanks.2 hplain).mp (List.append_assoc ..)
                rw [← hfront, ← hback]
                exact ⟨hblanks.1, ih.mpr ⟨taken, rest, rfl, h, rfl, rfl⟩⟩

namespace Target

/-! ## Reading from a token on -/

section

variable {t : Target} {segs : List Segment} {i j limit offset : Nat}

theorem boundary?_eq_some_iff (h : t.Tiled) (hi : i ≤ t.size) :
    t.boundary? offset i = some j ↔ i ≤ j ∧ j ≤ t.size ∧ t.offset j = offset := by
  fun_induction t.boundary? offset i with
  | case1 i heq =>
      simp only [Option.some.injEq]
      constructor
      · rintro rfl
        exact ⟨Nat.le_refl _, hi, heq⟩
      · rintro ⟨_, hj, hoffset⟩
        exact h.offset_inj hi hj (by omega)
  | case2 i hne hbefore ih =>
      rw [ih (by omega)]
      constructor
      · rintro ⟨hij, hj, hoffset⟩
        exact ⟨by omega, hj, hoffset⟩
      · rintro ⟨hij, hj, hoffset⟩
        refine ⟨?_, hj, hoffset⟩
        rcases Nat.eq_or_lt_of_le hij with rfl | hlt
        · exact absurd hoffset hne
        · exact hlt
  | case3 i hne hbefore =>
      simp only [reduceCtorEq, false_iff]
      rintro ⟨hij, hj, rfl⟩
      rcases Nat.eq_or_lt_of_le hij with rfl | hlt
      · exact hne rfl
      · exact hbefore ⟨by omega, h.offset_lt hlt (by omega)⟩

theorem readAt?_eq_some_iff_segments (h : t.Tiled) (hi : i ≤ limit) (hlimit : limit ≤ t.size) :
    t.readAt? segs i limit = some j ↔
      i ≤ j ∧ j ≤ limit ∧ SegmentsRead segs (t.text i j) (t.text j limit) := by
  have hroom := h.offset_eq_add hi
  have hleft : t.offset limit - t.offset i = byteLength (t.text i limit) := by omega
  simp only [readAt?, h.unread_append hi, hleft]
  constructor
  · intro hread
    split at hread
    · simp at hread
    · rename_i unread left hsegs
      obtain ⟨taken, rest, htext, hreads, rfl, rfl⟩ := readSegments?_eq_some_iff.mp hsegs
      obtain ⟨hij, hj, hoffset⟩ := (boundary?_eq_some_iff h (by omega)).mp hread
      have hlength := congrArg byteLength htext
      rw [byteLength_append] at hlength
      have hjl : j ≤ limit := by
        refine Nat.le_of_not_lt fun hlt => ?_
        have := h.offset_lt hlt (by omega)
        omega
      rw [h.text_append hij hjl] at htext
      have hstop := h.offset_eq_add hij
      obtain ⟨htaken, hrest⟩ := append_inj_of_byteLength htext (by omega)
      rw [htaken, hrest]
      exact ⟨hij, hjl, hreads⟩
  · rintro ⟨hij, hjl, hreads⟩
    have hsome : readSegments? segs (t.text i limit ++ t.unread.getD limit [])
        (byteLength (t.text i limit)) =
          some (t.text j limit ++ t.unread.getD limit [], byteLength (t.text j limit)) :=
      readSegments?_eq_some_iff.mpr ⟨_, _, h.text_append hij hjl, hreads, rfl, rfl⟩
    rw [hsome]
    have hstop := h.offset_eq_add hjl
    exact (boundary?_eq_some_iff h (by omega)).mpr ⟨hij, by omega, by omega⟩

/-- From token `i` on the text `content` ends before token `j`, no later than
`limit`. -/
def TextEnds (t : Target) (content : List Char) (limit i j : Nat) : Prop :=
  i ≤ j ∧ j ≤ limit ∧ Reads content (t.text i j) (t.text j limit)

theorem readAt?_segments_iff (h : t.Tiled) (hi : i ≤ limit) (hlimit : limit ≤ t.size)
    {content : List Char} :
    t.readAt? (segments content) i limit = some j ↔ t.TextEnds content limit i j := by
  rw [readAt?_eq_some_iff_segments h hi hlimit, segmentsRead_iff, TextEnds]

theorem readAt?_literal_iff (h : t.Tiled) (hi : i ≤ limit) (hlimit : limit ≤ t.size)
    {text : List Char} :
    t.readAt? [.literal text] i limit = some j ↔ i ≤ j ∧ j ≤ limit ∧ t.text i j = text := by
  rw [readAt?_eq_some_iff_segments h hi hlimit]
  refine and_congr_right fun _ => and_congr_right fun _ => ?_
  constructor
  · intro hread
    generalize htext : t.text i j = taken at hread
    cases hread with
    | literal hread =>
        cases hread
        exact List.append_nil _
  · rintro rfl
    have hread : SegmentsRead [.literal (t.text i j)] (t.text i j ++ []) (t.text j limit) :=
      .literal (.nil _)
    rwa [List.append_nil] at hread

end

end Target

end Stencil
