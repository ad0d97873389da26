import Stencil.Text.Utf8
/-!
# Edits

Replacements of byte ranges.  Of edits that overlap the earlier one is kept, and
of edits with one start that of the earlier rule.
-/

namespace Stencil

structure Edit where
  start : Nat
  stop : Nat
  replacement : String
  rule : Nat
  deriving DecidableEq, Repr

namespace Edit

def le (e f : Edit) : Bool := e.start < f.start || (e.start == f.start && e.rule ≤ f.rule)

/-- Keeps the edits that do not start before the end of the last one kept; `last`
is that end, if an edit has been kept. -/
def keep (last : Option Nat) : List Edit → List Edit
  | [] => []
  | e :: es =>
    if last.any (e.start < ·) then keep last es else e :: keep (some e.stop) es

/-! ### Order -/

theorem le_iff {e f : Edit} :
    e.le f = true ↔ e.start < f.start ∨ (e.start = f.start ∧ e.rule ≤ f.rule) := by
  simp [le]

theorem pairwise_le_mergeSort (es : List Edit) :
    (es.mergeSort le).Pairwise fun e f => e.le f = true := by
  apply List.pairwise_mergeSort
  · intro e f g hef hfg
    rw [le_iff] at hef hfg ⊢
    omega
  · intro e f
    rw [Bool.or_eq_true, le_iff, le_iff]
    omega

theorem keep_sublist (last : Option Nat) (es : List Edit) : (keep last es).Sublist es := by
  induction es generalizing last with
  | nil => exact .slnil
  | cons e es ih =>
      rw [keep]
      split
      · exact (ih last).cons e
      · exact (ih _).cons_cons e

theorem le_start_of_mem_keep {last : Option Nat} {es : List Edit}
    (hes : es.Pairwise fun e f => e.le f = true) :
    ∀ stop ∈ last, ∀ e ∈ keep last es, stop ≤ e.start := by
  induction es generalizing last with
  | nil => simp [keep]
  | cons e es ih =>
      intro stop hstop f hf
      obtain ⟨hle, hes⟩ := List.pairwise_cons.mp hes
      rw [keep] at hf
      split at hf
      · exact ih hes stop hstop f hf
      · rename_i hbehind
        have he : stop ≤ e.start := by
          rw [Option.mem_def.mp hstop] at hbehind
          simpa using hbehind
        rcases List.mem_cons.mp hf with rfl | hf
        · exact he
        · have := le_iff.mp (hle f ((keep_sublist _ es).subset hf))
          omega

theorem pairwise_stop_le_keep {es : List Edit} (hes : es.Pairwise fun e f => e.le f = true)
    (last : Option Nat) : (keep last es).Pairwise fun e f => e.stop ≤ f.start := by
  induction es generalizing last with
  | nil => exact .nil
  | cons e es ih =>
      have hrest := (List.pairwise_cons.mp hes).2
      rw [keep]
      split
      · exact ih hrest last
      · exact List.pairwise_cons.mpr ⟨le_start_of_mem_keep hrest e.stop rfl, ih hrest _⟩

/-! ### Lookup -/

def place (e : Edit) (start rule : Nat) : Ordering :=
  (compare e.start start).then (compare e.rule rule)

def search (edits : Array Edit) (start rule lo hi : Nat) : Bool :=
  if lo < hi then
    match edits[(lo + hi) / 2]? with
    | none => false
    | some e =>
      match e.place start rule with
      | .eq => true
      | .lt => search edits start rule ((lo + hi) / 2 + 1) hi
      | .gt => search edits start rule lo ((lo + hi) / 2)
  else false
  termination_by hi - lo

end Edit

structure EditSet where
  edits : List Edit
  ordered : edits.Pairwise fun e f => e.le f = true
  apart : edits.Pairwise fun e f => e.stop ≤ f.start
  deriving DecidableEq

namespace EditSet

def ofList (edits : List Edit) : EditSet where
  edits := Edit.keep none (edits.mergeSort Edit.le)
  ordered := (Edit.pairwise_le_mergeSort edits).sublist (Edit.keep_sublist none _)
  apart := Edit.pairwise_stop_le_keep (Edit.pairwise_le_mergeSort edits) none

def contains (s : EditSet) (start rule : Nat) : Bool :=
  Edit.search s.edits.toArray start rule 0 s.edits.length

/-- Copies what stands between the edits and puts in the replacements; `cursor` is
how far the source has been dealt with, and `ahead` what follows there. -/
def applyFrom (source : List UInt8) (cursor : Nat) (ahead : List UInt8) : List Edit → List UInt8
  | [] => ahead
  | e :: es =>
    let after := if e.stop < cursor then source.drop e.stop else ahead.drop (e.stop - cursor)
    ahead.take (e.start - cursor) ++ utf8Bytes e.replacement.toList ++
      applyFrom source e.stop after es

def apply (s : EditSet) (source : List UInt8) : List UInt8 := applyFrom source 0 source s.edits

end EditSet

end Stencil
