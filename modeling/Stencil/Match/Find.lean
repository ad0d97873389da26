import Stencil.Match.Alignment
import Stencil.NameMap
/-!
# Finding matches

The scan for matches, leftmost first.  After a match the scan goes on behind it,
or, when overlapping matches are wanted, one token after its start.  A scan is
known by the token it goes on from, so it can be stopped and taken up again.
-/

namespace Stencil

structure Matcher where
  vocabulary : Vocabulary
  program : List Instr

structure Capture where
  span : Span
  text : String
  deriving DecidableEq, Repr

structure Match where
  span : Span
  captures : NameMap Capture
  deriving DecidableEq, Repr

namespace Match

def bindings (m : Match) : NameMap String := m.captures.map (·.text)

end Match

def TokenRange.capture (t : Target) (r : TokenRange) : Capture :=
  ⟨t.span r.first r.last, String.ofList (t.text r.first r.last)⟩

def Alignment.text (t : Target) (a : Alignment) : String := String.ofList (t.text a.first a.last)

def Alignment.toMatch (t : Target) (a : Alignment) : Match where
  span := t.span a.first a.last
  captures := .ofList (a.bindings.map fun (name, r) => (name, r.capture t))

namespace Matcher

def ofPattern (v : Vocabulary) (p : Pattern) : Matcher := ⟨v, p.program⟩

def mayStart (m : Matcher) (t : Target) (i : Nat) : Bool :=
  startsBlank m.program || t.kind? i != some .blank

def matchAt? (m : Matcher) (t : Target) (i : Nat) : Option Alignment :=
  if m.mayStart t i then (align m.vocabulary t m.program i).filter fun a => i < a.last
  else none

def isMatch (m : Matcher) (t : Target) : Bool :=
  (List.range t.size).any fun i => (m.matchAt? t i).isSome

def next? (m : Matcher) (t : Target) (overlapping : Bool) (i : Nat) :
    Option Alignment × Nat :=
  if i < t.size then
    match m.matchAt? t i with
    | some a => (some a, if overlapping then i + 1 else a.last)
    | none => m.next? t overlapping (i + 1)
  else (none, i)
  termination_by t.size - i

theorem lt_of_matchAt? {m : Matcher} {t : Target} {i : Nat} {a : Alignment}
    (h : m.matchAt? t i = some a) : i < a.last := by
  unfold matchAt? at h
  split at h
  · simpa using (Option.filter_eq_some_iff.1 h).2
  · simp at h

theorem lt_of_next? {m : Matcher} {t : Target} {overlapping : Bool} {i j : Nat} {a : Alignment}
    (h : m.next? t overlapping i = (some a, j)) : i < t.size ∧ i < j := by
  fun_induction m.next? t overlapping i with
  | case1 i hi a' ha =>
    have := lt_of_matchAt? ha
    simp only [Prod.mk.injEq, Option.some.injEq] at h
    obtain ⟨rfl, rfl⟩ := h
    exact ⟨hi, by split <;> omega⟩
  | case2 i hi _ ih =>
    have := ih h
    omega
  | case3 => simp at h

def alignments (m : Matcher) (t : Target) (overlapping : Bool) (i : Nat) : List Alignment :=
  match h : m.next? t overlapping i with
  | (none, _) => []
  | (some a, j) =>
    have := lt_of_next? h
    a :: m.alignments t overlapping j
  termination_by t.size - i

def findAll (m : Matcher) (t : Target) (overlapping : Bool) : List Match :=
  (m.alignments t overlapping 0).map (·.toMatch t)

end Matcher

end Stencil
