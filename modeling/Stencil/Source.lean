import Stencil.Text.Utf8
/-!
# Source files

The bytes of a file and the places in it.  Lines count from 1 and columns, in
characters, from 0.  A line feed that ends the file starts no line.  The line of an
offset is looked up in a table of the starts of lines.
-/

namespace Stencil

/-! ## Partition points -/

/-- Where `p` stops to hold between two indices, if nothing behind that place meets it;
the half that does not have the place is left out. -/
def partitionPoint {α : Type} (p : α → Bool) (xs : Array α) (lo hi : Nat) : Nat :=
  if lo < hi then
    match xs[(lo + hi) / 2]? with
    | none => lo
    | some x =>
      if p x then partitionPoint p xs ((lo + hi) / 2 + 1) hi
      else partitionPoint p xs lo ((lo + hi) / 2)
  else lo
  termination_by hi - lo

theorem partitionPoint_eq {α : Type} {p : α → Bool} {front back : List α}
    (hfront : ∀ x ∈ front, p x = true) (hback : ∀ x ∈ back, p x = false) {lo hi : Nat}
    (hlo : lo ≤ front.length) (hhi : front.length ≤ hi) (hsize : hi ≤ (front ++ back).length) :
    partitionPoint p (front ++ back).toArray lo hi = front.length := by
  fun_induction partitionPoint p (front ++ back).toArray lo hi with
  | case1 lo hi hlt hnone =>
      rw [List.getElem?_toArray, List.getElem?_eq_none_iff] at hnone
      omega
  | case2 lo hi hlt x hx hp ih =>
      -- the middle lies in the front
      refine ih (Nat.lt_of_not_le fun hle => ?_) hhi hsize
      rw [List.getElem?_toArray, List.getElem?_append_right hle] at hx
      simp [hback x (List.mem_of_getElem? hx)] at hp
  | case3 lo hi hlt x hx hp ih =>
      refine ih hlo (Nat.le_of_not_lt fun hmiddle => ?_) (by omega)
      rw [List.getElem?_toArray, List.getElem?_append_left hmiddle] at hx
      exact hp (hfront x (List.mem_of_getElem? hx))
  | case4 lo hi hge => omega

/-! ## Places -/

structure Location where
  line : Nat
  column : Nat
  deriving DecidableEq, Repr

structure SourceFile where
  path : String
  content : List UInt8
  deriving DecidableEq, Repr

namespace SourceFile

def text? (f : SourceFile) : Except Utf8Fault (List Char) := decode f.content

/-- The starts of lines behind the line feeds among some of `length` bytes, which come with
their offsets. -/
def startsBehind (length : Nat) (bytes : List (UInt8 × Nat)) : List Nat :=
  (bytes.filter fun byte => byte.1 == 10 && byte.2 + 1 < length).map (·.2 + 1)

def lineStarts (f : SourceFile) : List Nat := 0 :: startsBehind f.content.length f.content.zipIdx

def lineCount (f : SourceFile) : Nat := f.lineStarts.length

/-- The place of a byte offset.  One past the end lies on the last line, in the column of
the end; `none` where the line would not be in the table or end before it starts. -/
def location? (f : SourceFile) (offset : Nat) : Option Location := do
  let starts := f.lineStarts.toArray
  let index := partitionPoint (· ≤ offset) starts 0 starts.size - 1
  let start ← starts[index]?
  let stop := min offset f.content.length
  if start ≤ stop then
    return ⟨index + 1, ((f.content.take stop).drop start).countP fun b => !isContinuation b⟩
  else none

/-! ### The table -/

def startsUpTo (f : SourceFile) (offset : Nat) : List Nat :=
  0 :: startsBehind f.content.length (f.content.take offset).zipIdx

def startsAfter (f : SourceFile) (offset : Nat) : List Nat :=
  startsBehind f.content.length ((f.content.drop offset).zipIdx (f.content.take offset).length)

theorem lineStarts_eq (f : SourceFile) (offset : Nat) :
    f.lineStarts = f.startsUpTo offset ++ f.startsAfter offset := by
  have hsplit : f.content.zipIdx = (f.content.take offset).zipIdx ++
      (f.content.drop offset).zipIdx (f.content.take offset).length := by
    rw [← Nat.zero_add (f.content.take offset).length, ← List.zipIdx_append,
      List.take_append_drop]
  rw [lineStarts, startsUpTo, startsAfter, hsplit, List.cons_append]
  simp only [startsBehind, List.filter_append, List.map_append]

theorem le_of_mem_startsUpTo {f : SourceFile} {offset start : Nat}
    (h : start ∈ f.startsUpTo offset) : start ≤ min offset f.content.length := by
  rcases List.mem_cons.mp h with rfl | h
  · exact Nat.zero_le _
  · obtain ⟨⟨b, i⟩, hmem, rfl⟩ := List.mem_map.mp h
    have hi := List.snd_lt_of_mem_zipIdx (List.mem_filter.mp hmem).1
    simp only [List.length_take] at hi
    omega

theorem lt_of_mem_startsAfter {f : SourceFile} {offset start : Nat}
    (h : start ∈ f.startsAfter offset) : offset < start := by
  obtain ⟨⟨b, i⟩, hmem, rfl⟩ := List.mem_map.mp h
  obtain ⟨hmem, hfeed⟩ := List.mem_filter.mp hmem
  have hi := List.le_snd_of_mem_zipIdx hmem
  simp only [Bool.and_eq_true, decide_eq_true_eq] at hfeed
  simp only [List.length_take] at hi
  omega

def lineStart (f : SourceFile) (offset : Nat) : Nat := (f.startsUpTo offset).getLastD 0

theorem lineStart_le (f : SourceFile) (offset : Nat) :
    f.lineStart offset ≤ min offset f.content.length := by
  refine le_of_mem_startsUpTo ?_
  rw [lineStart, List.getLastD_eq_getLast?, List.getLast?_eq_some_getLast (by simp [startsUpTo])]
  exact List.getLast_mem _

/-- The search finds the last start that is not beyond the offset, and the line goes on to
the offset or to the end. -/
theorem location?_eq (f : SourceFile) (offset : Nat) :
    f.location? offset = some ⟨(f.startsUpTo offset).length,
      ((f.content.take offset).drop (f.lineStart offset)).countP fun b => !isContinuation b⟩ := by
  have hpoint : partitionPoint (· ≤ offset) f.lineStarts.toArray 0 f.lineStarts.toArray.size =
      (f.startsUpTo offset).length := by
    rw [lineStarts_eq f offset]
    refine partitionPoint_eq ?_ ?_ (Nat.zero_le _) (by simp) (by simp)
    · intro start hstart
      have := le_of_mem_startsUpTo hstart
      exact decide_eq_true (by omega)
    · intro start hstart
      exact decide_eq_false (Nat.not_le.mpr (lt_of_mem_startsAfter hstart))
  have hlength : 0 < (f.startsUpTo offset).length := Nat.succ_pos _
  have hstart : f.lineStarts.toArray[(f.startsUpTo offset).length - 1]? =
      some (f.lineStart offset) := by
    rw [List.getElem?_toArray, lineStarts_eq f offset, List.getElem?_append_left (by omega),
      ← List.getLast?_eq_getElem?, lineStart, List.getLastD_eq_getLast?,
      List.getLast?_eq_some_getLast (List.ne_nil_of_length_pos hlength)]
    rfl
  have htake : f.content.take (min offset f.content.length) = f.content.take offset := by
    simp [List.take_eq_take_iff]
  simp only [location?, hpoint, hstart, Option.bind_eq_bind, Option.bind_some,
    if_pos (f.lineStart_le offset), htake, Nat.sub_add_cancel hlength]
  rfl

theorem isSome_location? (f : SourceFile) (offset : Nat) : (f.location? offset).isSome = true := by
  rw [location?_eq]
  rfl

def location (f : SourceFile) (offset : Nat) : Location :=
  (f.location? offset).get (f.isSome_location? offset)

end SourceFile

end Stencil
