import Stencil.Proofs.Match.Bindings
import Stencil.Proofs.Match.Scan

/-!
# Selection of matches

A scan for overlapping matches finds one at each token at which a match may start
and some alignment is not empty.  A scan for matches that do not overlap selects
from these, each time the first that starts behind the one before.
-/

namespace Stencil

def Pattern.beginsBlank : Pattern → Bool
  | text content _ _ => content.toList.head?.any isBlank
  | _ => false

/-- From matches in the order of their starts, those that start where the last
match kept stops, or later. -/
def keepApart (stop : Nat) : List Match → List Match
  | [] => []
  | m :: ms =>
    if m.span.start < stop then keepApart stop ms else m :: keepApart m.span.stop ms

/-! ## Empty alignments -/

theorem exists_lt_of_precedes {ends ends' : List Nat} (h : Precedes ends ends')
    (hlength : ends.length = ends'.length) : ∃ stop ∈ ends, ∃ stop' ∈ ends', stop' < stop := by
  induction h with
  | nil => simp at hlength
  | cons _ ih =>
      obtain ⟨stop, hstop, stop', hstop', hlt⟩ := ih (by simpa using hlength)
      exact ⟨stop, by simp [hstop], stop', by simp [hstop'], hlt⟩
  | @rel stop _ stop' _ hlt => exact ⟨stop, by simp, stop', by simp, hlt⟩

section

variable {v : Vocabulary} {t : Target} {p : Pattern} {i : Nat} {a b : Alignment}

theorem Aligns.ends_within (hN : t.Nested) (hi : i ≤ t.size) (ha : Aligns v t p i a) :
    ∀ stop ∈ a.ends, i ≤ stop ∧ stop ≤ a.last := by
  intro stop hstop
  rw [Alignment.ends, choices, List.mem_reverse, List.mem_map] at hstop
  obtain ⟨entry, hentry, rfl⟩ := hstop
  obtain ⟨hfirst, hle, hlast⟩ := ha.2.within_of_mem hN ⟨hi, .inl rfl⟩ hentry
  exact ⟨Nat.le_trans hfirst hle, hlast⟩

theorem Aligns.length_ends (ha : Aligns v t p i a) (hb : Aligns v t p i b) :
    a.ends.length = b.ends.length := by
  have hnames := ha.2.names_eq.trans hb.2.names_eq.symm
  simpa [Alignment.ends, choices] using congrArg List.length hnames

/-- The search gives an empty alignment only where no other can be found: at the
first difference an alignment found later would have to end before its start. -/
theorem lt_last_of_align (hT : t.Tiled) (hN : t.Nested) (hi : i ≤ t.size)
    (ha : align v t p.program i = some a) (hb : Aligns v t p i b) (hlt : i < b.last) :
    i < a.last := by
  have haligns := aligns_of_align hT hN hi ha
  rcases first_of_align hT hN hi ha hb with rfl | hprecedes
  · exact hlt
  · obtain ⟨stop, hstop, stop', hstop', hbefore⟩ :=
      exists_lt_of_precedes hprecedes (haligns.length_ends hb)
    have hlast := (haligns.ends_within hN hi stop hstop).2
    have hfirst := (hb.ends_within hN hi stop' hstop').1
    exact Nat.lt_of_le_of_lt hfirst (Nat.lt_of_lt_of_le hbefore hlast)

end

namespace Matcher

variable {m : Matcher} {t : Target} {overlapping : Bool} {i j : Nat} {a : Alignment}

/-! ## Starts -/

theorem startsBlank_program (p : Pattern) : startsBlank p.program = p.beginsBlank := by
  cases p with
  | nil => rfl
  | hole h offset rest => rfl
  | block offset body rest => rfl
  | text content offset rest =>
      rw [program_text, Pattern.beginsBlank]
      cases content.toList with
      | nil => rfl
      | cons c cs =>
          cases hc : isBlank c with
          | true => simp [segments_blank hc, startsBlank, hc]
          | false =>
              rw [segments, if_neg (by simp [hc])]
              split <;> simp [startsBlank, hc]

theorem beginsBlank_mapHoles (f : Hole → Hole) (p : Pattern) :
    (p.mapHoles f).beginsBlank = p.beginsBlank := by
  cases p <;> rfl

theorem mayStart_iff {v : Vocabulary} {p : Pattern} :
    (ofPattern v p).mayStart t i = true ↔
      p.beginsBlank = true ∨ t.kind? i ≠ some .blank := by
  simp [mayStart, ofPattern, startsBlank_program]

theorem isSome_matchAt?_iff (hT : t.Tiled) (hN : t.Nested) {v : Vocabulary} {p : Pattern}
    (hi : i ≤ t.size) :
    ((ofPattern v p).matchAt? t i).isSome = true ↔
      (p.beginsBlank = true ∨ t.kind? i ≠ some .blank) ∧
        ∃ b, Aligns v t p i b ∧ i < b.last := by
  rw [← mayStart_iff (v := v), Option.isSome_iff_exists]
  constructor
  · rintro ⟨a, ha⟩
    have haligns := aligns_of_align hT hN hi (align_of_matchAt? ha)
    refine ⟨?_, a, haligns, lt_of_matchAt? ha⟩
    rw [matchAt?] at ha
    split at ha
    · assumption
    · simp at ha
  · rintro ⟨hstart, b, hb, hlt⟩
    obtain ⟨a, ha⟩ := exists_align_of_aligns hT hN hi hb
    refine ⟨a, ?_⟩
    rw [matchAt?, if_pos hstart]
    exact Option.filter_eq_some_iff.mpr
      ⟨ha, by simpa using lt_last_of_align hT hN hi ha hb hlt⟩

/-! ## The scan, token by token -/

theorem alignments_of_size_le (hi : t.size ≤ i) : m.alignments t overlapping i = [] := by
  have hnext : m.next? t overlapping i = (none, i) := by
    rw [next?, if_neg (by omega)]
  rw [alignments]
  split
  · rfl
  · simp_all

theorem alignments_of_some (hi : i < t.size) (ha : m.matchAt? t i = some a) :
    m.alignments t overlapping i =
      a :: m.alignments t overlapping (if overlapping then i + 1 else a.last) := by
  have hnext : m.next? t overlapping i = (some a, if overlapping then i + 1 else a.last) := by
    rw [next?, if_pos hi, ha]
  rw [alignments]
  split
  · simp_all
  · simp_all

theorem alignments_of_none (hi : i < t.size) (hnone : m.matchAt? t i = none) :
    m.alignments t overlapping i = m.alignments t overlapping (i + 1) := by
  have hnext : m.next? t overlapping i = m.next? t overlapping (i + 1) := by
    rw [next?, if_pos hi, hnone]
  rw [alignments, alignments]
  split <;> split <;> simp_all

theorem alignments_map {m' : Matcher} {t' : Target} {f : Alignment → Alignment}
    (hsize : t.size = t'.size) (hlast : ∀ a, (f a).last = a.last)
    (h : ∀ i, i < t.size → m'.matchAt? t' i = (m.matchAt? t i).map f) (overlapping : Bool)
    (i : Nat) : m'.alignments t' overlapping i = (m.alignments t overlapping i).map f := by
  induction hn : t.size - i using Nat.strongRecOn generalizing i with
  | ind n ih =>
      by_cases hi : i < t.size
      · have hmatch := h i hi
        cases ha : m.matchAt? t i with
        | none =>
            rw [ha, Option.map_none] at hmatch
            rw [alignments_of_none hi ha, alignments_of_none (hsize ▸ hi) hmatch]
            exact ih _ (by omega) (i + 1) rfl
        | some a =>
            have hforward := lt_of_matchAt? ha
            rw [ha, Option.map_some] at hmatch
            rw [alignments_of_some hi ha, alignments_of_some (hsize ▸ hi) hmatch, hlast,
              List.map_cons]
            exact congrArg _ (ih _ (by split <;> omega) _ rfl)
      · rw [alignments_of_size_le (by omega), alignments_of_size_le (by omega), List.map_nil]

theorem alignments_overlapping (m : Matcher) (t : Target) (i : Nat) :
    m.alignments t true i = (List.range' i (t.size - i)).filterMap (m.matchAt? t) := by
  induction hn : t.size - i generalizing i with
  | zero => exact alignments_of_size_le (by omega)
  | succ n ih =>
      rw [List.range'_succ, List.filterMap_cons, ← ih (i + 1) (by omega)]
      cases ha : m.matchAt? t i with
      | none => exact alignments_of_none (by omega) ha
      | some a => exact alignments_of_some (by omega) ha

theorem keepApart_alignments (hT : t.Tiled) (hij : i ≤ j) :
    keepApart (t.offset j) ((m.alignments t true i).map (·.toMatch t)) =
      keepApart (t.offset j) ((m.alignments t true j).map (·.toMatch t)) := by
  induction hn : j - i generalizing i with
  | zero => rw [show i = j by omega]
  | succ n ih =>
      have hrest := ih (i := i + 1) (by omega) (by omega)
      by_cases hi : i < t.size
      · cases ha : m.matchAt? t i with
        | none => rw [alignments_of_none hi ha, hrest]
        | some a =>
            have hbefore : (a.toMatch t).span.start < t.offset j := by
              change t.offset a.first < t.offset j
              rw [first_of_matchAt? ha]
              exact hT.offset_lt (by omega) hi
            rw [alignments_of_some hi ha, List.map_cons, keepApart, if_pos hbefore, if_pos rfl,
              hrest]
      · rw [alignments_of_size_le (by omega : t.size ≤ i),
          alignments_of_size_le (by omega : t.size ≤ j)]

theorem map_alignments_apart (hT : t.Tiled) (m : Matcher) {stop : Nat} (i : Nat)
    (hstop : stop ≤ t.offset i) :
    (m.alignments t false i).map (·.toMatch t) =
      keepApart stop ((m.alignments t true i).map (·.toMatch t)) := by
  induction hn : t.size - i using Nat.strongRecOn generalizing i stop with
  | ind n ih =>
      by_cases hi : i < t.size
      · cases ha : m.matchAt? t i with
        | none =>
            rw [alignments_of_none hi ha, alignments_of_none hi ha]
            exact ih _ (by omega) (i + 1)
              (Nat.le_trans hstop (hT.offset_mono (Nat.le_succ i))) rfl
        | some a =>
            have hlast := lt_of_matchAt? ha
            have hkept : ¬ (a.toMatch t).span.start < stop := by
              change ¬ t.offset a.first < stop
              rw [first_of_matchAt? ha]
              omega
            rw [alignments_of_some hi ha, alignments_of_some hi ha, List.map_cons, List.map_cons,
              keepApart, if_neg hkept, if_pos rfl, if_neg (by simp),
              ih _ (by omega) a.last (Nat.le_refl _) rfl]
            exact congrArg _ (keepApart_alignments hT hlast).symm
      · rw [alignments_of_size_le (by omega), alignments_of_size_le (by omega)]
        rfl

theorem keepApart_eq_nil_iff {ms : List Match} : keepApart 0 ms = [] ↔ ms = [] := by
  cases ms <;> simp [keepApart]

theorem isMatch_iff : m.isMatch t = true ↔ m.findAll t true ≠ [] := by
  rw [isMatch, List.any_eq_true, findAll, alignments_overlapping, Nat.sub_zero,
    ← List.range_eq_range', ne_eq, List.map_eq_nil_iff, List.filterMap_eq_nil_iff]
  simp [Option.isSome_iff_ne_none]

/-! ## Both scans -/

/-- The overlapping scan gives one match for each token at which a match may start
and an alignment is not empty.  The other scan selects from these, from left to
right, the matches that do not overlap what has been selected. -/
theorem scans_select {source : String} {tokens : List Target.Token} {t : Target}
    (ht : Target.ofTokens? source tokens = .ok t) (v : Vocabulary) (p : Pattern) (k : Nat) :
    (((ofPattern v p).alignments t true k).map (·.toMatch t)).Pairwise
        (fun m m' => m.span.start < m'.span.start) ∧
      (∀ a ∈ (ofPattern v p).alignments t true k, Aligns v t p a.first a ∧ a.first < a.last) ∧
      (∀ i, (∃! a, a ∈ (ofPattern v p).alignments t true k ∧ a.first = i) ↔
        k ≤ i ∧ i < t.size ∧ (p.beginsBlank = true ∨ t.kind? i ≠ some .blank) ∧
          ∃ b, Aligns v t p i b ∧ i < b.last) ∧
      ((ofPattern v p).alignments t false k).map (·.toMatch t) =
        keepApart 0 (((ofPattern v p).alignments t true k).map (·.toMatch t)) ∧
      (((ofPattern v p).alignments t false k).map (·.toMatch t)).Pairwise
        (fun m m' => m.span.stop ≤ m'.span.start) ∧
      (∀ m ∈ ((ofPattern v p).alignments t false k).map (·.toMatch t),
        m.span.start < m.span.stop) ∧
      ((ofPattern v p).isMatch t = true ↔ (ofPattern v p).findAll t true ≠ []) ∧
      ((ofPattern v p).isMatch t = true ↔ (ofPattern v p).findAll t false ≠ []) := by
  have hT : t.Tiled := Target.tiled_of_ofTokens? ht
  have hN : t.Nested := Target.nested_of_ofTokens? ht
  have hapart := fun i => map_alignments_apart hT (ofPattern v p) i (Nat.zero_le _)
  refine ⟨?_, ?_, ?_, hapart k, ?_, ?_, isMatch_iff, ?_⟩
  · rw [List.pairwise_map]
    exact ((ofPattern v p).pairwise_alignments t true k).imp_of_mem
      fun ha _ hlt => hT.offset_lt hlt.1 (mem_alignments ha).2.1
  · intro a ha
    obtain ⟨_, hsize, hfound⟩ := mem_alignments ha
    exact ⟨aligns_of_align hT hN (Nat.le_of_lt hsize) (align_of_matchAt? hfound),
      lt_of_matchAt? hfound⟩
  · intro i
    constructor
    · rintro ⟨a, ⟨ha, rfl⟩, _⟩
      obtain ⟨hk, hsize, hfound⟩ := mem_alignments ha
      exact ⟨hk, hsize, (isSome_matchAt?_iff hT hN (Nat.le_of_lt hsize)).mp (by simp [hfound])⟩
    · rintro ⟨hk, hsize, hstart⟩
      obtain ⟨a, ha⟩ := Option.isSome_iff_exists.mp
        ((isSome_matchAt?_iff hT hN (Nat.le_of_lt hsize)).mpr hstart)
      refine ⟨a, ⟨?_, first_of_matchAt? ha⟩, ?_⟩
      · rw [alignments_overlapping, List.mem_filterMap]
        exact ⟨i, List.mem_range'_1.mpr ⟨hk, by omega⟩, ha⟩
      · rintro b ⟨hb, rfl⟩
        exact Option.some.inj ((mem_alignments hb).2.2.symm.trans ha)
  · rw [List.pairwise_map]
    exact ((ofPattern v p).pairwise_alignments t false k).imp
      fun hlt => hT.offset_mono (hlt.2 rfl)
  · intro m hm
    obtain ⟨a, ha, rfl⟩ := List.mem_map.mp hm
    obtain ⟨_, hsize, hfound⟩ := mem_alignments ha
    exact hT.offset_lt (lt_of_matchAt? hfound) hsize
  · rw [isMatch_iff, findAll, findAll, hapart 0, ne_eq, ne_eq, keepApart_eq_nil_iff]

/-- The closing bracket has only an empty alignment, and blanks start no match. -/
theorem scans_select_call :
    ∃ t p, Target.ofTokens? "f(x) y;" (Target.scan "f(x) y;") = .ok t ∧
      Pattern.compile ":[[a]]:[[b]]" = .ok p ∧
      ((ofPattern .builtin p).alignments t true 1).map (·.toMatch t |>.span) =
        [⟨1, 7⟩, ⟨2, 3⟩, ⟨5, 7⟩, ⟨6, 7⟩] ∧
      ((ofPattern .builtin p).alignments t false 1).map (·.toMatch t) =
        keepApart 0 (((ofPattern .builtin p).alignments t true 1).map (·.toMatch t)) ∧
      ((ofPattern .builtin p).isMatch t = true ↔ (ofPattern .builtin p).findAll t false ≠ []) := by
  have hspans : (do
        let t ← (Target.tokenize "f(x) y;").toOption
        let p ← (Pattern.compile ":[[a]]:[[b]]").toOption
        return ((ofPattern .builtin p).alignments t true 1).map (·.toMatch t |>.span)) =
      some [⟨1, 7⟩, ⟨2, 3⟩, ⟨5, 7⟩, ⟨6, 7⟩] := by decide +kernel
  obtain ⟨t, p, ht, hp, hspans⟩ := exists_ok_of_bind_toOption hspans
  obtain ⟨_, _, _, hapart, _, _, _, hisMatch⟩ := scans_select ht .builtin p 1
  exact ⟨t, p, ht, hp, hspans, hapart, hisMatch⟩

end Matcher

end Stencil
