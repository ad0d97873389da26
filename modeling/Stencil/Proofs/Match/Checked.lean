import Stencil.Match.Find
import Stencil.Proofs.Match.Reading
import Stencil.Proofs.Match.Search

/-!
# The checked search

The search once more, with a fault wherever it looks at a token that is not there or
cuts the source other than between two of its characters.  Inside a target nothing of
the kind happens, and the checked search gives what the search gives.
-/

namespace Stencil

inductive Breach where
  /-- There is no such token. -/
  | token (i : Nat)
  /-- The partner of the bracket does not lie ahead. -/
  | partner (i : Nat)
  /-- One of the bytes is beyond the source or inside a character, or the second comes
  before the first. -/
  | slice (start stop : Nat)
  deriving DecidableEq, Repr

namespace Checked

/-! ## Looks at the target -/

def kind (t : Target) (i : Nat) : Except Breach LexemeKind :=
  match t.kind? i with
  | some k => .ok k
  | none => .error (.token i)

def partner (t : Target) (i : Nat) : Except Breach {c : Nat // i < c} :=
  match t.partners[i]? with
  | none => .error (.token i)
  | some c => if h : i < c then .ok ⟨c, h⟩ else .error (.partner i)

def slice (t : Target) (start stop : Nat) : Except Breach (List Char) :=
  if start ≤ stop then
    match splitBytes? start t.source.toList with
    | none => .error (.slice start stop)
    | some (_, rest) =>
      match splitBytes? (stop - start) rest with
      | none => .error (.slice start stop)
      | some (text, _) => .ok text
  else .error (.slice start stop)

def after (t : Target) (i : Nat) : Except Breach {j : Nat // i < j} := do
  match ← kind t i with
  | .opening _ =>
    let c ← partner t i
    return ⟨c + 1, Nat.lt_succ_of_lt c.2⟩
  | _ => return ⟨i + 1, Nat.lt_succ_self i⟩

/-! ## Reading -/

def readSegments (t : Target) (stop : Nat) : List Segment → Nat → Except Breach (Option Nat)
  | [], start => return some start
  | .literal text :: segs, start => do
    let ahead ← slice t start stop
    if text <+: ahead then readSegments t stop segs (start + byteLength text) else return none
  | .blank :: segs, start => do
    let ahead ← slice t start stop
    let count := byteLength (ahead.takeWhile isBlank)
    if count = 0 then return none else readSegments t stop segs (start + count)

def readAt (t : Target) (segs : List Segment) (i limit : Nat) : Except Breach (Option Nat) := do
  let stop? ← readSegments t (t.offset limit) segs (t.offset i)
  return stop?.bind (t.boundary? · i)

/-! ## Capture ends -/

def groupEnds (t : Target) (limit i : Nat) : Except Breach (List Nat) := do
  if i < limit then
    match ← kind t i with
    | .opening _ =>
      let j ← after t i
      let ends ← groupEnds t limit j
      return j.1 :: ends
    | _ => return []
  else return []
  termination_by limit - i
  decreasing_by
    have := j.2
    omega

def unitEnds (t : Target) (limit i : Nat) : Except Breach (List Nat) := do
  if i < limit then
    match ← kind t i with
    | .blank | .closing _ => return []
    | .opening _ =>
      let j ← after t i
      return [j.1]
    | .comment | .punct => return [i + 1]
    | .word | .literal =>
      let ends ← groupEnds t limit (i + 1)
      return (i + 1) :: ends
  else return []

def atomEnds (t : Target) (limit i : Nat) : Except Breach (List Nat) := do
  if i < limit then
    let j ← after t i
    let ends ← atomEnds t limit j
    return i :: ends
  else return [i]
  termination_by limit - i
  decreasing_by
    have := j.2
    omega

def captureEnds (t : Target) (quantifier : Quantifier) (limit i : Nat) :
    Except Breach (List Nat) :=
  match quantifier with
  | .one => unitEnds t limit i
  | .block => atomEnds t limit i

def acceptedEnds (v : Vocabulary) (t : Target) (kind : CaptureKind) (i : Nat) (ends : List Nat) :
    Except Breach (List Nat) := do
  let captures ← ends.mapM fun stop => return (stop, ← slice t (t.offset i) (t.offset stop))
  return (captures.filter fun (_, text) => v.accepts kind text).map (·.1)

/-! ## Search -/

def successors (v : Vocabulary) (t : Target) (instr : Instr) (s : State) :
    Except Breach (List State) := do
  match instr with
  | .text segs =>
    let stop? ← readAt t segs s.position (s.limit t)
    return stop?.toList.map fun stop => { s with position := stop }
  | .enter =>
    if s.position < s.limit t then
      if (← kind t s.position) = .opening .brace then
        let c ← partner t s.position
        return [{ s with position := s.position + 1, scopes := c :: s.scopes }]
      else return []
    else return []
  | .leave =>
    if s.scopes.head? = some s.position then
      return [{ s with position := s.position + 1, scopes := s.scopes.tail }]
    else return []
  | .hole h =>
    match s.bindings.lookup h.name with
    | some bound =>
      let text ← slice t (t.offset bound.first) (t.offset bound.last)
      let stop? ← readAt t [.literal text] s.position (s.limit t)
      return stop?.toList.map fun stop => { s with position := stop }
    | none =>
      let limit := min (s.limit t) (t.scopeEnd s.position)
      let ends ← captureEnds t h.quantifier limit s.position
      let accepted ← acceptedEnds v t h.kind s.position ends
      return accepted.reverse.map (s.bind h.name)

def search (v : Vocabulary) (t : Target) : List Instr → State → Except Breach (Option State)
  | [], s => return some s
  | instr :: rest, s => do (← successors v t instr s).findSomeM? (search v t rest)

def capture (t : Target) (r : TokenRange) : Except Breach Capture := do
  let text ← slice t (t.offset r.first) (t.offset r.last)
  return ⟨t.span r.first r.last, String.ofList text⟩

def finish (t : Target) (i : Nat) (s : State) : Except Breach Match := do
  let captures ← s.bindings.mapM fun entry => return (entry.1, ← capture t entry.2)
  return ⟨t.span i s.position, .ofList captures⟩

def matchAt (v : Vocabulary) (t : Target) (program : List Instr) (i : Nat) :
    Except Breach (Option Match) := do
  match ← search v t program (.start i) with
  | none => return none
  | some s => return some (← finish t i s)

/-! ## No faults inside the target -/

section

variable {t : Target} {limit i j : Nat}

theorem ok_bind {ε α β : Type} (a : α) (f : α → Except ε β) : (Except.ok a >>= f) = f a := rfl

theorem mapM_eq_ok {ε α β : Type} {f : α → Except ε β} {g : α → β} {as : List α}
    (h : ∀ a ∈ as, f a = .ok (g a)) : as.mapM f = .ok (as.map g) := by
  induction as with
  | nil => rfl
  | cons a as ih =>
      rw [List.mapM_cons, h a (by simp), ok_bind, ih fun b hb => h b (by simp [hb]), ok_bind]
      rfl

theorem findSomeM?_eq_ok {ε α β : Type} {f : α → Except ε (Option β)} {g : α → Option β}
    {as : List α} (h : ∀ a ∈ as, f a = .ok (g a)) : as.findSomeM? f = .ok (as.findSome? g) := by
  induction as with
  | nil => rfl
  | cons a as ih =>
      rw [List.findSomeM?, h a (by simp), ok_bind, List.findSome?_cons]
      cases g a with
      | none => exact ih fun b hb => h b (by simp [hb])
      | some b => rfl

theorem kind_eq_ok {k : LexemeKind} (h : t.kind? i = some k) : kind t i = .ok k := by
  rw [kind, h]

theorem exists_kind (hi : i < t.size) : ∃ k, t.kind? i = some k :=
  ⟨t.lexemes[i].kind, by simp [Target.kind?, Array.getElem?_eq_getElem hi]⟩

theorem partner_eq_ok (hN : t.Nested) (hpartners : t.partners.size = t.size) {d : Delimiter}
    (hi : t.kind? i = some (.opening d)) :
    partner t i = .ok ⟨t.partner i, hN.lt_partner hi⟩ := by
  have hlt : i < t.partners.size := hpartners ▸ Target.kind?_lt hi
  have hget : t.partners[i]? = some (t.partner i) := by simp [Target.partner, hlt]
  rw [partner, hget]
  exact dif_pos (hN.lt_partner hi)

theorem slice_of_append {before text beyond : List Char}
    (h : t.source.toList = before ++ (text ++ beyond)) :
    slice t (byteLength before) (byteLength before + byteLength text) = .ok text := by
  have hbefore : splitBytes? (byteLength before) t.source.toList = some (before, text ++ beyond) :=
    splitBytes?_eq_some_iff.mpr ⟨h, rfl⟩
  have htext : splitBytes? (byteLength text) (text ++ beyond) = some (text, beyond) :=
    splitBytes?_eq_some_iff.mpr ⟨rfl, rfl⟩
  rw [slice, if_pos (Nat.le_add_right _ _), hbefore]
  dsimp only
  rw [Nat.add_sub_cancel_left, htext]

theorem slice_eq_ok (hT : t.Tiled) (hij : i ≤ j) :
    slice t (t.offset i) (t.offset j) = .ok (t.text i j) := by
  rw [hT.offset_eq_add hij, hT.offset_eq_byteLength i]
  exact slice_of_append (hT.source_eq_append hij)

theorem after_eq_ok (hN : t.Nested) (hpartners : t.partners.size = t.size) (hi : i < t.size) :
    after t i = .ok ⟨t.after i, t.lt_after i⟩ := by
  obtain ⟨k, hk⟩ := exists_kind hi
  rw [after, kind_eq_ok hk]
  cases k with
  | opening d =>
      simp only [partner_eq_ok hN hpartners hk, hN.after_opening hk]
      rfl
  | closing d | blank | word | literal | comment | punct =>
      have hafter : t.after i = i + 1 := Target.Nested.after_other (by simp [hk])
      simp only [hafter]
      rfl

/-! ### Reading -/

theorem readSegments_eq_ok {before window beyond : List Char} (segs : List Segment)
    (h : t.source.toList = before ++ (window ++ beyond)) :
    readSegments t (byteLength before + byteLength window) segs (byteLength before) =
      .ok ((Stencil.readSegments? segs (window ++ beyond) (byteLength window)).map fun read =>
        byteLength before + byteLength window - read.2) := by
  induction segs generalizing before window with
  | nil =>
      rw [readSegments, readSegments?, Option.map_some, Nat.add_sub_cancel_right]
      rfl
  | cons seg segs ih =>
      have hslice := slice_of_append h
      cases seg with
      | literal text =>
          rw [readSegments, hslice, ok_bind, readSegments?]
          by_cases hprefix : text <+: window
          · obtain ⟨rest, rfl⟩ := hprefix
            have hread : readLiteral? text (text ++ rest ++ beyond) (byteLength (text ++ rest)) =
                some (rest ++ beyond, byteLength rest) :=
              readLiteral?_eq_some_iff.mpr ⟨rest, rfl, rfl, rfl⟩
            have hsource : t.source.toList = (before ++ text) ++ (rest ++ beyond) := by
              simpa using h
            have hrest := ih hsource
            rw [if_pos (List.prefix_append ..), hread]
            simpa [Nat.add_assoc] using hrest
          · have hread : readLiteral? text (window ++ beyond) (byteLength window) = none := by
              refine Option.eq_none_iff_forall_ne_some.mpr fun read hsome => hprefix ?_
              obtain ⟨rest, rfl, _⟩ := readLiteral?_eq_some_iff.mp hsome
              exact List.prefix_append ..
            rw [if_neg hprefix, hread]
            rfl
      | blank =>
          have hwindow : window.takeWhile isBlank ++ window.dropWhile isBlank = window :=
            List.takeWhile_append_dropWhile
          have hlength := congrArg byteLength hwindow
          rw [byteLength_append] at hlength
          have hsource : t.source.toList = (before ++ window.takeWhile isBlank) ++
              (window.dropWhile isBlank ++ beyond) := by
            rw [h, List.append_assoc, ← List.append_assoc (window.takeWhile isBlank), hwindow]
          have hrest := ih hsource
          rw [readSegments, hslice, ok_bind, readSegments?, skipBlanks_window]
          dsimp only
          by_cases hnone : byteLength (window.takeWhile isBlank) = 0
          · rw [if_pos hnone, if_pos (by omega)]
            rfl
          · rw [if_neg hnone, if_neg (by omega)]
            simpa [Nat.add_assoc, hlength] using hrest

theorem readAt_eq_ok (hT : t.Tiled) (segs : List Segment) (hi : i ≤ limit) :
    readAt t segs i limit = .ok (t.readAt? segs i limit) := by
  have hread := readSegments_eq_ok segs (hT.source_eq_append hi)
  have hroom := hT.offset_eq_add hi
  rw [← hT.offset_eq_byteLength, ← hroom] at hread
  rw [readAt, hread, ok_bind, Target.readAt?, hT.unread_append hi,
    show t.offset limit - t.offset i = byteLength (t.text i limit) by omega]
  cases Stencil.readSegments? segs (t.text i limit ++ t.unread.getD limit [])
    (byteLength (t.text i limit)) <;> rfl

/-! ### Capture ends -/

theorem groupEnds_eq_ok (hN : t.Nested) (hpartners : t.partners.size = t.size)
    (hlimit : limit ≤ t.size) : groupEnds t limit i = .ok (t.groupEnds limit i) := by
  fun_induction t.groupEnds limit i with
  | case1 i h ih =>
      obtain ⟨hi, hopening⟩ := h
      obtain ⟨d, hd⟩ := Target.isOpening_iff.mp hopening
      rw [groupEnds, if_pos hi, kind_eq_ok hd, ok_bind]
      dsimp only
      rw [after_eq_ok hN hpartners (by omega), ok_bind, ih, ok_bind]
      rfl
  | case2 i h =>
      rw [groupEnds]
      by_cases hi : i < limit
      · obtain ⟨k, hk⟩ := exists_kind (t := t) (i := i) (by omega)
        rw [if_pos hi, kind_eq_ok hk, ok_bind]
        cases k with
        | opening d => exact absurd ⟨hi, Target.isOpening_iff.mpr ⟨d, hk⟩⟩ h
        | closing d | blank | word | literal | comment | punct => rfl
      · rw [if_neg hi]
        rfl

theorem unitEnds_eq_ok (hN : t.Nested) (hpartners : t.partners.size = t.size)
    (hlimit : limit ≤ t.size) : unitEnds t limit i = .ok (t.unitEnds limit i) := by
  rw [unitEnds, Target.unitEnds]
  by_cases hi : i < limit
  · obtain ⟨k, hk⟩ := exists_kind (t := t) (i := i) (by omega)
    rw [if_pos hi, if_pos hi, kind_eq_ok hk, ok_bind, hk]
    cases k with
    | opening d =>
        dsimp only
        rw [after_eq_ok hN hpartners (by omega)]
        rfl
    | word | literal =>
        dsimp only
        rw [groupEnds_eq_ok hN hpartners hlimit]
        rfl
    | closing d | blank | comment | punct => rfl
  · rw [if_neg hi, if_neg hi]
    rfl

theorem atomEnds_eq_ok (hN : t.Nested) (hpartners : t.partners.size = t.size)
    (hlimit : limit ≤ t.size) : atomEnds t limit i = .ok (t.atomEnds limit i) := by
  fun_induction t.atomEnds limit i with
  | case1 i hi ih =>
      rw [atomEnds, if_pos hi, after_eq_ok hN hpartners (by omega), ok_bind, ih, ok_bind]
      rfl
  | case2 i hi =>
      rw [atomEnds, if_neg hi]
      rfl

theorem captureEnds_eq_ok (hN : t.Nested) (hpartners : t.partners.size = t.size)
    (quantifier : Quantifier) (hlimit : limit ≤ t.size) :
    captureEnds t quantifier limit i = .ok (t.captureEnds quantifier limit i) := by
  cases quantifier with
  | one => exact unitEnds_eq_ok hN hpartners hlimit
  | block => exact atomEnds_eq_ok hN hpartners hlimit

theorem acceptedEnds_eq_ok (hT : t.Tiled) (v : Vocabulary) (kind : CaptureKind) {ends : List Nat}
    (hends : ∀ stop ∈ ends, i ≤ stop) :
    acceptedEnds v t kind i ends = .ok (t.acceptedEnds v kind i ends) := by
  have hcaptures : (ends.mapM fun stop => return (stop, ← slice t (t.offset i) (t.offset stop))) =
      Except.ok (ends.map fun stop => (stop, t.text i stop)) := by
    refine mapM_eq_ok fun stop hstop => ?_
    rw [slice_eq_ok hT (hends stop hstop)]
    rfl
  rw [acceptedEnds, hcaptures, ok_bind, acceptedEnds_eq_filter, List.filter_map, List.map_map]
  exact congrArg Except.ok (List.map_id _)

end

end Checked

end Stencil
