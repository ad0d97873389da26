import Stencil.Proofs.Pattern.Holes
import Stencil.Rewrite

/-!
# Walking and rebuilding patterns

A pattern can be walked with a stack of the item lists that are not yet used up, and
built from such a walk with a stack of the blocks that are still open.  The walk is the
recursive one: its source, its program and a template that is filled are made along it.
Rebuilding from it gives the pattern back, so that a pattern can be copied with other
holes and nothing else in it changes.
-/

namespace Stencil

/-! ## Visits -/

/-- A stop of a walk; a block shows with its body where it is entered and where it is
left. -/
inductive Visit where
  | hole (hole : Hole) (offset : Nat)
  | text (content : String) (offset : Nat)
  | enter (offset : Nat) (body : Pattern)
  | exit (offset : Nat) (body : Pattern)
  deriving DecidableEq, Repr

namespace Visit

def step : Visit → Step
  | hole h offset => .hole h offset
  | text content offset => .text content offset
  | enter offset body => .enter offset body.size
  | exit offset _ => .exit offset

def mapHole (f : Hole → Hole) : Visit → Visit
  | hole h offset => .hole (f h) offset
  | text content offset => .text content offset
  | enter offset body => .enter offset (body.mapHoles f)
  | exit offset body => .exit offset (body.mapHoles f)

def source : Visit → String
  | hole h _ => h.source
  | text content _ => content
  | enter .. => "\x7b"
  | exit .. => "\x7d"

def fill (bindings : NameMap String) (out : String) : Visit → Except UnboundHole String
  | hole h offset =>
    match bindings.find? h.name with
    | none => .error ⟨h.name, offset⟩
    | some value => .ok (out ++ value)
  | text content _ => .ok (out ++ content)
  | enter .. => .ok (out ++ "\x7b")
  | exit .. => .ok (out ++ "\x7d")

end Visit

namespace Pattern

def visits : Pattern → List Visit
  | nil => []
  | hole h offset rest => .hole h offset :: rest.visits
  | text content offset rest => .text content offset :: rest.visits
  | block offset body rest =>
    .enter offset body :: body.visits ++ .exit offset body :: rest.visits

theorem steps_eq_map_visits (p : Pattern) : p.steps = p.visits.map Visit.step := by
  induction p with
  | nil => rfl
  | hole h offset rest ih => simp [steps, visits, Visit.step, ih]
  | text content offset rest ih => simp [steps, visits, Visit.step, ih]
  | block offset body rest ihBody ihRest =>
      simp [steps, visits, Visit.step, ihBody, ihRest]

theorem visits_mapHoles (f : Hole → Hole) (p : Pattern) :
    (p.mapHoles f).visits = p.visits.map (Visit.mapHole f) := by
  induction p with
  | nil => rfl
  | hole h offset rest ih => simp [mapHoles, visits, Visit.mapHole, ih]
  | text content offset rest ih => simp [mapHoles, visits, Visit.mapHole, ih]
  | block offset body rest ihBody ihRest =>
      simp [mapHoles, visits, Visit.mapHole, ihBody, ihRest]

theorem exists_exit_of_enter {p body : Pattern} {offset : Nat} {before after : List Visit}
    (h : p.visits = before ++ .enter offset body :: after) :
    ∃ rest, after = body.visits ++ .exit offset body :: rest := by
  induction p generalizing before after with
  | nil => simp [visits] at h
  | hole hole offset rest ih | text content offset rest ih =>
      obtain _ | ⟨visit, before⟩ := before
      · simp [visits] at h
      · exact ih (List.cons.inj h).2
  | block offset' body' rest ihBody ihRest =>
      obtain _ | ⟨visit, before⟩ := before
      · simp only [visits, List.nil_append, List.cons_append, List.cons.injEq,
          Visit.enter.injEq] at h
        obtain ⟨⟨rfl, rfl⟩, rfl⟩ := h
        exact ⟨rest.visits, rfl⟩
      · simp only [visits, List.cons_append, List.cons.injEq] at h
        obtain ⟨inner, rfl, hrest⟩ | ⟨inner, hbody, hafter⟩ := List.append_eq_append_iff.mp h.2
        · obtain _ | ⟨visit, inner⟩ := inner
          · simp at hrest
          · exact ihRest (List.cons.inj hrest).2
        · obtain _ | ⟨visit, inner⟩ := inner
          · simp at hafter
          · obtain ⟨rfl, rfl⟩ := List.cons.inj hafter
            obtain ⟨rest', rfl⟩ := ihBody hbody
            exact ⟨rest' ++ .exit offset' body' :: rest.visits, by simp⟩

theorem exists_enter_of_exit {p body : Pattern} {offset : Nat} {before after : List Visit}
    (h : p.visits = before ++ .exit offset body :: after) :
    ∃ front, before = front ++ .enter offset body :: body.visits := by
  induction p generalizing before after with
  | nil => simp [visits] at h
  | hole _ _ rest ih | text _ _ rest ih =>
      obtain _ | ⟨visit, before⟩ := before
      · simp [visits] at h
      · obtain ⟨front, rfl⟩ := ih (List.cons.inj h).2
        exact ⟨visit :: front, rfl⟩
  | block offset' body' rest ihBody ihRest =>
      obtain _ | ⟨visit, before⟩ := before
      · simp [visits] at h
      · simp only [visits, List.cons_append, List.cons.injEq] at h
        obtain ⟨rfl, h⟩ := h
        obtain ⟨inner, rfl, hrest⟩ | ⟨inner, hbody, hafter⟩ := List.append_eq_append_iff.mp h
        · obtain _ | ⟨visit, inner⟩ := inner
          · simp only [List.nil_append, List.cons.injEq, Visit.exit.injEq] at hrest
            obtain ⟨⟨rfl, rfl⟩, _⟩ := hrest
            exact ⟨[], by simp⟩
          · obtain ⟨front, rfl⟩ := ihRest (List.cons.inj hrest).2
            obtain ⟨rfl, _⟩ := List.cons.inj hrest
            exact ⟨.enter offset' body' :: (body'.visits ++ .exit offset' body' :: front),
              by simp⟩
        · obtain _ | ⟨visit, inner⟩ := inner
          · simp only [List.nil_append, List.cons.injEq, Visit.exit.injEq] at hafter
            obtain ⟨⟨rfl, rfl⟩, _⟩ := hafter
            exact ⟨[], by simpa using hbody.symm⟩
          · obtain ⟨rfl, _⟩ := List.cons.inj hafter
            obtain ⟨front, rfl⟩ := ihBody hbody
            exact ⟨.enter offset' body' :: front, rfl⟩

/-- Each block that is entered is left right behind the walk through its body, and each
that is left was entered right before it. -/
structure Paired (walk : List Visit) : Prop where
  left : ∀ before after offset body, walk = before ++ .enter offset body :: after →
    ∃ rest, after = body.visits ++ .exit offset body :: rest
  entered : ∀ before after offset body, walk = before ++ .exit offset body :: after →
    ∃ front, before = front ++ .enter offset body :: body.visits

theorem paired_visits (p : Pattern) : Paired p.visits where
  left _ _ _ _ h := exists_exit_of_enter h
  entered _ _ _ _ h := exists_enter_of_exit h

theorem foldl_source_visits (p : Pattern) (out : String) :
    p.visits.foldl (fun out visit => out ++ visit.source) out = out ++ p.source := by
  induction p generalizing out with
  | nil => simp [visits, source]
  | hole h offset rest ih =>
      rw [visits, List.foldl_cons, ih, source, String.append_assoc]
      rfl
  | text content offset rest ih =>
      rw [visits, List.foldl_cons, ih, source, String.append_assoc]
      rfl
  | block offset body rest ihBody ihRest =>
      simp only [visits, List.cons_append, List.foldl_cons, List.foldl_append, ihBody, ihRest]
      simp only [Visit.source, source, String.append_assoc]

theorem foldlM_fill_visits (bindings : NameMap String) (p : Pattern) (out : String) :
    p.visits.foldlM (Visit.fill bindings) out = (p.fill bindings).map (out ++ ·) := by
  induction p generalizing out with
  | nil => simp [visits, fill, pure, Except.pure, Except.map]
  | hole h offset rest ih =>
      rw [visits, List.foldlM_cons, Visit.fill, fill]
      cases bindings.find? h.name with
      | none => rfl
      | some value =>
          simp only [bind, Except.bind, ih]
          cases rest.fill bindings <;> simp [Except.map, String.append_assoc]
  | text content offset rest ih =>
      simp only [visits, List.foldlM_cons, Visit.fill, fill, bind, Except.bind, ih]
      cases rest.fill bindings <;> simp [Except.map, String.append_assoc]
  | block offset body rest ihBody ihRest =>
      simp only [visits, List.cons_append, List.foldlM_cons, List.foldlM_append, Visit.fill,
        fill, bind, Except.bind, ihBody]
      cases body.fill bindings with
      | error e => rfl
      | ok inner =>
          simp only [Except.map, ihRest]
          cases rest.fill bindings <;> simp [String.append_assoc]

end Pattern

/-! ## Other holes -/

def Hole.unkinded (h : Hole) : Hole := { h with kind := .any }

namespace Pattern

theorem mapHoles_mapHoles (f g : Hole → Hole) (p : Pattern) :
    (p.mapHoles f).mapHoles g = p.mapHoles (g ∘ f) := by
  induction p with
  | nil => rfl
  | hole h offset rest ih => simp [mapHoles, ih]
  | text content offset rest ih => simp [mapHoles, ih]
  | block offset body rest ihBody ihRest => simp [mapHoles, ihBody, ihRest]

theorem mapHoles_id (p : Pattern) : p.mapHoles id = p := by
  induction p with
  | nil => rfl
  | hole h offset rest ih => simp [mapHoles, ih]
  | text content offset rest ih => simp [mapHoles, ih]
  | block offset body rest ihBody ihRest => simp [mapHoles, ihBody, ihRest]

theorem source_mapHoles {f : Hole → Hole} (hf : ∀ h, (f h).source = h.source) (p : Pattern) :
    (p.mapHoles f).source = p.source := by
  induction p with
  | nil => rfl
  | hole h offset rest ih => simp [mapHoles, source, hf, ih]
  | text content offset rest ih => simp [mapHoles, source, ih]
  | block offset body rest ihBody ihRest => simp [mapHoles, source, ihBody, ihRest]

variable (p : Pattern) (name : String) (kind kind' : CaptureKind)

theorem unkinded_constrain :
    (p.constrain name kind).mapHoles Hole.unkinded = p.mapHoles Hole.unkinded := by
  rw [constrain, mapHoles_mapHoles]
  congr 1
  funext h
  simp only [Function.comp_apply, Hole.unkinded]
  split <;> rfl

theorem source_constrain : (p.constrain name kind).source = p.source := by
  refine source_mapHoles (fun h => ?_) p
  split <;> rfl

theorem constrain_comm {name' : String} (hne : name ≠ name') :
    (p.constrain name kind).constrain name' kind' =
      (p.constrain name' kind').constrain name kind := by
  simp only [constrain, mapHoles_mapHoles]
  congr 1
  funext h
  simp only [Function.comp_apply]
  by_cases hname : h.name = name
  · simp [hname, hne]
  · by_cases hname' : h.name = name' <;> simp [hname, hname', hne.symm]

theorem constrain_constrain :
    (p.constrain name kind).constrain name kind' = p.constrain name kind' := by
  simp only [constrain, mapHoles_mapHoles]
  congr 1
  funext h
  simp only [Function.comp_apply]
  split <;> simp_all

end Pattern

/-! ## Walking with a stack -/

/-- Items that are still to be walked, and the block whose body they end; the outermost
items are of no block. -/
structure Frame where
  items : Pattern
  block : Option (Nat × Pattern)
  deriving DecidableEq, Repr

structure Walk where
  frames : List Frame
  deriving DecidableEq, Repr

namespace Walk

def ofPattern (p : Pattern) : Walk := ⟨[⟨p, none⟩]⟩

def nextFrom? : List Frame → Option (Visit × List Frame)
  | [] => none
  | ⟨.nil, none⟩ :: outer => nextFrom? outer
  | ⟨.nil, some (offset, body)⟩ :: outer => some (.exit offset body, outer)
  | ⟨.hole h offset rest, block⟩ :: outer => some (.hole h offset, ⟨rest, block⟩ :: outer)
  | ⟨.text content offset rest, block⟩ :: outer =>
    some (.text content offset, ⟨rest, block⟩ :: outer)
  | ⟨.block offset body rest, block⟩ :: outer =>
    some (.enter offset body, ⟨body, some (offset, body)⟩ :: ⟨rest, block⟩ :: outer)

def next? (w : Walk) : Option (Visit × Walk) :=
  (nextFrom? w.frames).map fun (visit, frames) => (visit, ⟨frames⟩)

/-- What is ahead of a walk that has come down to `frames`. -/
def ahead : List Frame → List Visit
  | [] => []
  | ⟨items, none⟩ :: outer => items.visits ++ ahead outer
  | ⟨items, some (offset, body)⟩ :: outer => items.visits ++ .exit offset body :: ahead outer

theorem ahead_cons (items : Pattern) (block : Option (Nat × Pattern)) (outer : List Frame) :
    ahead (⟨items, block⟩ :: outer) = items.visits ++ ahead (⟨.nil, block⟩ :: outer) := by
  cases block <;> simp [ahead, Pattern.visits]

theorem ahead_eq (frames : List Frame) :
    ahead frames = match nextFrom? frames with
      | none => []
      | some (visit, frames') => visit :: ahead frames' := by
  induction frames with
  | nil => rfl
  | cons frame outer ih =>
      obtain ⟨items, block⟩ := frame
      cases items with
      | nil =>
          cases block with
          | none => simpa [ahead, Pattern.visits, nextFrom?] using ih
          | some block => rfl
      | hole | text =>
          rw [ahead_cons]
          simp only [nextFrom?, Pattern.visits, List.cons_append, ← ahead_cons]
      | block offset body rest =>
          rw [ahead_cons]
          simp [nextFrom?, Pattern.visits, ahead, ← ahead_cons rest]

theorem ahead_of_next? {w w' : Walk} {visit : Visit} (h : w.next? = some (visit, w')) :
    ahead w.frames = visit :: ahead w'.frames := by
  obtain ⟨⟨visit', frames⟩, hnext, heq⟩ := Option.map_eq_some_iff.mp h
  obtain ⟨rfl, rfl⟩ := Prod.mk.inj heq
  rw [ahead_eq, hnext]

def toList (w : Walk) : List Visit :=
  match h : w.next? with
  | none => []
  | some (visit, w') =>
    have : (ahead w'.frames).length < (ahead w.frames).length := by
      rw [ahead_of_next? h]
      exact Nat.lt_succ_self _
    visit :: toList w'
  termination_by (ahead w.frames).length

theorem toList_eq_ahead (w : Walk) : w.toList = ahead w.frames := by
  fun_induction toList w with
  | case1 w hnext =>
      have hnone : nextFrom? w.frames = none := by simpa [next?] using hnext
      rw [ahead_eq, hnone]
  | case2 w visit w' hnext hlt ih => rw [ahead_of_next? hnext, ih]

theorem toList_ofPattern (p : Pattern) : (ofPattern p).toList = p.visits := by
  simp [toList_eq_ahead, ofPattern, ahead]

end Walk

/-! ## Appending items -/

namespace Pattern

def append : Pattern → Pattern → Pattern
  | nil, q => q
  | hole h offset rest, q => hole h offset (rest.append q)
  | text content offset rest, q => text content offset (rest.append q)
  | block offset body rest, q => block offset body (rest.append q)

instance : Append Pattern := ⟨append⟩

@[simp] theorem nil_append (p : Pattern) : nil ++ p = p := rfl

@[simp] theorem hole_append (h : Hole) (offset : Nat) (p q : Pattern) :
    hole h offset p ++ q = hole h offset (p ++ q) := rfl

@[simp] theorem text_append (content : String) (offset : Nat) (p q : Pattern) :
    text content offset p ++ q = text content offset (p ++ q) := rfl

@[simp] theorem block_append (offset : Nat) (body p q : Pattern) :
    block offset body p ++ q = block offset body (p ++ q) := rfl

@[simp] theorem append_nil (p : Pattern) : p ++ nil = p := by
  induction p with
  | nil => rfl
  | hole h offset rest ih => simp [ih]
  | text content offset rest ih => simp [ih]
  | block offset body rest _ ih => simp [ih]

theorem append_assoc (p q r : Pattern) : p ++ q ++ r = p ++ (q ++ r) := by
  induction p with
  | nil => rfl
  | hole h offset rest ih => simp [ih]
  | text content offset rest ih => simp [ih]
  | block offset body rest _ ih => simp [ih]

end Pattern

/-! ## Building with a stack -/

/-- A pattern in the making: the items of no open block, and of each open block the
offset and the items it has so far, innermost first. -/
structure TreeBuilder where
  items : Pattern
  opened : List (Nat × Pattern)
  deriving DecidableEq, Repr

structure PatternTree where
  children : Pattern
  offset : Nat
  deriving DecidableEq, Repr

namespace TreeBuilder

def empty : TreeBuilder := ⟨.nil, []⟩

def push (items : Pattern) (b : TreeBuilder) : TreeBuilder :=
  match b.opened with
  | [] => { b with items := b.items ++ items }
  | (offset, content) :: outer => { b with opened := (offset, content ++ items) :: outer }

def enter (offset : Nat) (b : TreeBuilder) : TreeBuilder :=
  { b with opened := (offset, .nil) :: b.opened }

def close (b : TreeBuilder) : Bool × TreeBuilder :=
  match b.opened with
  | [] => (false, b)
  | (offset, content) :: outer =>
    (true, push (.block offset content .nil) { b with opened := outer })

theorem length_opened_push (items : Pattern) (b : TreeBuilder) :
    (b.push items).opened.length = b.opened.length := by
  unfold push
  split <;> simp_all

def intoItems (b : TreeBuilder) : Pattern :=
  match h : b.close with
  | (false, _) => b.items
  | (true, b') =>
    have : b'.opened.length < b.opened.length := by
      unfold close at h
      split at h
      · simp at h
      · rename_i hopened
        rw [← (Prod.mk.inj h).2, length_opened_push, hopened]
        exact Nat.lt_succ_self _
    intoItems b'
  termination_by b.opened.length

def finish (b : TreeBuilder) : PatternTree := ⟨b.intoItems, 0⟩

@[simp] theorem push_nil (b : TreeBuilder) : b.push .nil = b := by
  obtain ⟨items, opened⟩ := b
  cases opened <;> simp [push]

@[simp] theorem push_push (p q : Pattern) (b : TreeBuilder) :
    (b.push p).push q = b.push (p ++ q) := by
  obtain ⟨items, opened⟩ := b
  cases opened <;> simp [push, Pattern.append_assoc]

theorem close_push_enter (offset : Nat) (body : Pattern) (b : TreeBuilder) :
    ((b.enter offset).push body).close = (true, b.push (.block offset body .nil)) := rfl

theorem intoItems_push_empty (p : Pattern) : (empty.push p).intoItems = p := by
  unfold intoItems
  rfl

end TreeBuilder

/-! ## Rebuilding -/

namespace TreeBuilder

def follow (f : Hole → Hole) (b : TreeBuilder) : Visit → TreeBuilder
  | .hole h offset => b.push (.hole (f h) offset .nil)
  | .text content offset => b.push (.text content offset .nil)
  | .enter offset _ => b.enter offset
  | .exit _ _ => b.close.2

/-- Following a walk leaves the open blocks as they are and adds what was walked. -/
theorem foldl_follow_visits (f : Hole → Hole) (p : Pattern) (b : TreeBuilder) :
    p.visits.foldl (follow f) b = b.push (p.mapHoles f) := by
  induction p generalizing b with
  | nil => simp [Pattern.visits, Pattern.mapHoles]
  | hole h offset rest ih => simp [Pattern.visits, Pattern.mapHoles, follow, ih]
  | text content offset rest ih => simp [Pattern.visits, Pattern.mapHoles, follow, ih]
  | block offset body rest ihBody ihRest =>
      simp only [Pattern.visits, List.cons_append, List.foldl_cons, List.foldl_append, follow,
        ihBody, ihRest, close_push_enter, push_push]
      rfl

end TreeBuilder

namespace PatternTree

def walk (t : PatternTree) : List Visit := (Walk.ofPattern t.children).toList

def rebuild (f : Hole → Hole) (t : PatternTree) : TreeBuilder :=
  t.walk.foldl (TreeBuilder.follow f) .empty

def clone (t : PatternTree) : PatternTree := ⟨(t.rebuild id).intoItems, t.offset⟩

def mapHoles (f : Hole → Hole) (t : PatternTree) : PatternTree :=
  { (t.rebuild f).finish with offset := t.offset }

def constrain (name : String) (kind : CaptureKind) (t : PatternTree) : PatternTree :=
  t.mapHoles fun h => if h.name = name then { h with kind } else h

def source (t : PatternTree) : String :=
  t.walk.foldl (fun out visit => out ++ visit.source) ""

def fill (bindings : NameMap String) (t : PatternTree) : Except UnboundHole String :=
  t.walk.foldlM (Visit.fill bindings) ""

theorem walk_eq (t : PatternTree) : t.walk = t.children.visits := Walk.toList_ofPattern _

theorem source_eq (t : PatternTree) : t.source = t.children.source := by
  rw [source, walk_eq, Pattern.foldl_source_visits]
  simp

theorem fill_eq (bindings : NameMap String) (t : PatternTree) :
    t.fill bindings = t.children.fill bindings := by
  rw [fill, walk_eq, Pattern.foldlM_fill_visits]
  cases t.children.fill bindings <;> simp [Except.map]

theorem steps_eq (t : PatternTree) : t.children.steps = t.walk.map Visit.step := by
  rw [walk_eq, Pattern.steps_eq_map_visits]

theorem intoItems_rebuild (f : Hole → Hole) (t : PatternTree) :
    (t.rebuild f).intoItems = t.children.mapHoles f := by
  rw [rebuild, walk_eq, TreeBuilder.foldl_follow_visits, TreeBuilder.intoItems_push_empty]

theorem mapHoles_eq (f : Hole → Hole) (t : PatternTree) :
    t.mapHoles f = ⟨t.children.mapHoles f, t.offset⟩ := by
  rw [mapHoles, TreeBuilder.finish, intoItems_rebuild]

theorem constrain_eq (name : String) (kind : CaptureKind) (t : PatternTree) :
    t.constrain name kind = ⟨t.children.constrain name kind, t.offset⟩ := mapHoles_eq _ t

/-- Walking with a stack is walking by recursion, which enters and leaves each block once
and is what the steps and the program are taken from.  Rebuilding from the walk gives the
tree back, with other holes where others are asked for and with nothing else changed.  So
capture kinds leave all but the kinds as it is; those of two names do not meet, and of
those of one name the last counts. -/
theorem rebuild_walk (t : PatternTree) (f : Hole → Hole) :
    t.walk = t.children.visits ∧ Pattern.Paired t.walk ∧
      t.children.steps = t.walk.map Visit.step ∧
      t.children.program = t.walk.map (fun visit => visit.step.instr) ∧ t.clone = t ∧
      t.mapHoles f = ⟨t.children.mapHoles f, t.offset⟩ ∧
      (t.mapHoles f).walk = t.walk.map (Visit.mapHole f) ∧
      (∀ name kind,
        (t.constrain name kind).mapHoles Hole.unkinded = t.mapHoles Hole.unkinded ∧
          (t.constrain name kind).source = t.source) ∧
      (∀ name name' kind kind', name ≠ name' →
        (t.constrain name kind).constrain name' kind' =
          (t.constrain name' kind').constrain name kind) ∧
      ∀ name kind kind',
        (t.constrain name kind).constrain name kind' = t.constrain name kind' := by
  refine ⟨t.walk_eq, t.walk_eq ▸ t.children.paired_visits, t.steps_eq, ?_, ?_, mapHoles_eq f t,
    ?_, ?_, ?_, ?_⟩
  · rw [Pattern.program, steps_eq, List.map_map]
    rfl
  · rw [clone, intoItems_rebuild, Pattern.mapHoles_id]
  · rw [mapHoles_eq, walk_eq, walk_eq, Pattern.visits_mapHoles]
  · intro name kind
    rw [constrain_eq, mapHoles_eq, mapHoles_eq, source_eq, source_eq]
    exact ⟨by rw [Pattern.unkinded_constrain], Pattern.source_constrain _ name kind⟩
  · intro name name' kind kind' hne
    simp only [constrain_eq, Pattern.constrain_comm _ name kind kind' hne]
  · intro name kind kind'
    simp only [constrain_eq, Pattern.constrain_constrain]

/-- Texts side by side, an empty one, an empty block, and blocks that end together. -/
theorem rebuild_walk_nested :
    ∃ t : PatternTree,
      t = ⟨.text "a" 0 (.text "" 1 (.block 1 .nil (.block 3 (.hole ⟨"x", .any, .one⟩ 4
        (.block 8 (.hole ⟨"y", .any, .block⟩ 9 .nil) .nil)) .nil))), 7⟩ ∧
      t.walk.map Visit.step =
        [.text "a" 0, .text "" 1, .enter 1 0, .exit 1, .enter 3 2, .hole ⟨"x", .any, .one⟩ 4,
          .enter 8 1, .hole ⟨"y", .any, .block⟩ 9, .exit 8, .exit 3] ∧
      "x" ≠ "y" ∧
      (t.constrain "x" .identifier).constrain "y" ⟨"digits"⟩ =
        (t.constrain "y" ⟨"digits"⟩).constrain "x" .identifier := by
  refine ⟨_, rfl, ?_, by decide, ?_⟩
  · rw [walk_eq]
    rfl
  · obtain ⟨_, _, _, _, _, _, _, _, hcomm, _⟩ := rebuild_walk _ id
    exact hcomm "x" "y" .identifier ⟨"digits"⟩ (by decide)

end PatternTree

end Stencil
