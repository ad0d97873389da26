import Stencil.Proofs.Pattern.Acceptance
import Stencil.Proofs.Pattern.Traversal

/-!
# Building patterns from tokens

The parser once more, from left to right: it keeps the place that it has come to and puts
each token behind what it has, in the innermost block that is open.  A text is added to a
text that stands there.  It gives what checking the braces first and assembling from
right to left gives, and stops at the same place.
-/

namespace Stencil

/-! ## Items behind items -/

namespace Pattern

/-- The items of `p` and then those of `q`; a text that ends `p` and one that begins `q`
are one text. -/
def meld : Pattern → Pattern → Pattern
  | nil, q => q
  | hole h offset rest, q => hole h offset (rest.meld q)
  | text content offset nil, q => consText content offset q
  | text content offset rest, q => text content offset (rest.meld q)
  | block offset body rest, q => block offset body (rest.meld q)

theorem text_meld {rest : Pattern} (hrest : rest ≠ nil) (content : String) (offset : Nat)
    (q : Pattern) : (text content offset rest).meld q = text content offset (rest.meld q) := by
  cases rest with
  | nil => contradiction
  | hole | text | block => rfl

theorem meld_nil (p : Pattern) : p.meld nil = p := by
  induction p with
  | nil => rfl
  | hole h offset rest ih => rw [meld, ih]
  | text content offset rest ih =>
      by_cases hrest : rest = nil
      · rw [hrest]
        rfl
      · rw [text_meld hrest, ih]
  | block offset body rest _ ih => rw [meld, ih]

theorem meld_ne_nil {p : Pattern} (hp : p ≠ nil) (q : Pattern) : p.meld q ≠ nil := by
  cases p with
  | nil => contradiction
  | hole | block => simp [meld]
  | text content offset rest => cases rest <;> cases q <;> simp [meld, consText]

theorem consText_meld (content : String) (offset : Nat) (p q : Pattern) :
    (consText content offset p).meld q = consText content offset (p.meld q) := by
  cases p with
  | nil | hole | block => rfl
  | text content' offset' rest =>
      cases rest with
      | nil => cases q <;> simp [consText, meld, String.append_assoc]
      | hole | text | block => rfl

theorem meld_assoc (p q r : Pattern) : (p.meld q).meld r = p.meld (q.meld r) := by
  induction p with
  | nil => rfl
  | hole h offset rest ih => simp only [meld, ih]
  | text content offset rest ih =>
      by_cases hrest : rest = nil
      · rw [hrest, meld, consText_meld, meld]
      · rw [text_meld hrest, text_meld (meld_ne_nil hrest q), text_meld hrest, ih]
  | block offset body rest _ ih => simp only [meld, ih]

theorem meld_eq_append {q : Pattern} (hq : ∀ content offset, consText content offset q =
    text content offset q) (p : Pattern) : p.meld q = p ++ q := by
  induction p with
  | nil => rfl
  | hole h offset rest ih => rw [meld, ih, hole_append]
  | text content offset rest ih =>
      by_cases hrest : rest = nil
      · rw [hrest, meld, hq, text_append, nil_append]
      · rw [text_meld hrest, ih, text_append]
  | block offset body rest _ ih => rw [meld, ih, block_append]

end Pattern

/-! ## Builders -/

namespace TreeBuilder

open Pattern

def pushText (value : String) (offset : Nat) (b : TreeBuilder) : TreeBuilder :=
  match b.opened with
  | [] => { b with items := b.items.meld (text value offset nil) }
  | (start, content) :: outer =>
    { b with opened := (start, content.meld (text value offset nil)) :: outer }

/-- The items `current` come behind those of the innermost open block, which is closed
then, and each list in `outer` behind the block that was closed last. -/
def completeFrom (items : Pattern) : List (Nat × Pattern) → Pattern → List Pattern → Pattern
  | [], current, _ => items.meld current
  | (offset, content) :: opened, current, outer =>
    completeFrom items opened (block offset (content.meld current) (outer.headD nil)) outer.tail

def complete (b : TreeBuilder) : Pattern → List Pattern → Pattern := completeFrom b.items b.opened

variable (b : TreeBuilder) (current : Pattern) (outer : List Pattern)

theorem complete_pushText (value : String) (offset : Nat) :
    (b.pushText value offset).complete current outer =
      b.complete (consText value offset current) outer := by
  obtain ⟨items, opened⟩ := b
  cases opened with
  | nil => simp only [complete, pushText, completeFrom, meld_assoc, meld]
  | cons top opened => simp only [complete, pushText, completeFrom, meld_assoc, meld]

theorem complete_push (item : Pattern) (hitem : ∀ content offset, consText content offset item =
    text content offset item) :
    (b.push item).complete current outer = b.complete (item.meld current) outer := by
  obtain ⟨items, opened⟩ := b
  cases opened with
  | nil => simp only [complete, push, completeFrom, ← meld_eq_append hitem, meld_assoc]
  | cons top opened => simp only [complete, push, completeFrom, ← meld_eq_append hitem, meld_assoc]

theorem complete_enter (offset : Nat) :
    (b.enter offset).complete current outer =
      b.complete (block offset current (outer.headD nil)) outer.tail := rfl

theorem complete_close (h : b.opened ≠ []) :
    b.close.2.complete current outer = b.complete nil (current :: outer) := by
  obtain ⟨items, opened⟩ := b
  cases opened with
  | nil => contradiction
  | cons top opened =>
      obtain ⟨offset, content⟩ := top
      have hpush := complete_push ⟨items, opened⟩ current outer (block offset content nil)
        fun _ _ => rfl
      refine hpush.trans ?_
      simp only [complete, completeFrom, meld, meld_nil, List.headD_cons, List.tail_cons]

/-! The blocks that are open are told by where they start. -/

theorem opened_pushText (value : String) (offset : Nat) :
    (b.pushText value offset).opened.map (·.1) = b.opened.map (·.1) := by
  obtain ⟨items, opened⟩ := b
  cases opened <;> rfl

theorem opened_push (items : Pattern) :
    (b.push items).opened.map (·.1) = b.opened.map (·.1) := by
  obtain ⟨items, opened⟩ := b
  cases opened <;> rfl

theorem opened_close : b.close.2.opened.map (·.1) = (b.opened.map (·.1)).tail := by
  obtain ⟨items, opened⟩ := b
  cases opened with
  | nil => rfl
  | cons top opened => exact opened_push ⟨items, opened⟩ _

theorem intoItems_of_closed (h : b.opened = []) : b.intoItems = b.items := by
  obtain ⟨items, opened⟩ := b
  obtain rfl : opened = [] := h
  unfold intoItems
  rfl

end TreeBuilder

/-! ## The parser -/

structure TokenCursor where
  tokens : List Token
  position : Nat
  deriving DecidableEq, Repr

namespace TokenCursor

def settle (b : TreeBuilder) : Except BraceError PatternTree :=
  match b.opened with
  | [] => .ok b.finish
  | (offset, _) :: _ => .error (.unclosed offset)

def parseFrom (tokens : List Token) (b : TreeBuilder) (position : Nat) :
    Except BraceError PatternTree × Nat :=
  if h : position < tokens.length then
    let t := tokens[position]
    match t.kind with
    | .finish => (settle b, position)
    | .text | .blank => parseFrom tokens (b.pushText t.value t.offset) (position + 1)
    | .hole h => parseFrom tokens (b.push (.hole h t.offset .nil)) (position + 1)
    | .openBrace => parseFrom tokens (b.enter t.offset) (position + 1)
    | .closeBrace =>
      match b.close with
      | (true, b) => parseFrom tokens b (position + 1)
      | (false, _) => (.error (.unmatched t.offset), position + 1)
  else (settle b, position)
  termination_by tokens.length - position

def parse (c : TokenCursor) : Except BraceError PatternTree × TokenCursor :=
  let (result, position) := parseFrom c.tokens .empty c.position
  (result, { c with position })

def resolve (b : TreeBuilder) (ts : List Token) : Except BraceError PatternTree × List Token :=
  match braceDefect? (b.opened.map (·.1)) ts with
  | some (e, unread) => (.error e, unread)
  | none =>
    let (current, outer) := Pattern.assemble ts
    (.ok ⟨b.complete current outer, 0⟩, [])

section

variable {t : Token} {ts : List Token} {b : TreeBuilder}

theorem resolve_nil : resolve b [] = (settle b, []) := by
  obtain ⟨items, opened⟩ := b
  cases opened with
  | nil =>
      rw [settle, TreeBuilder.finish, TreeBuilder.intoItems_of_closed _ rfl]
      simp [resolve, braceDefect?, Pattern.assemble, TreeBuilder.complete,
        TreeBuilder.completeFrom, Pattern.meld_nil]
  | cons top opened => rfl

theorem resolve_of_complete {b' : TreeBuilder}
    (hdefect : braceDefect? (b.opened.map (·.1)) (t :: ts) = braceDefect? (b'.opened.map (·.1)) ts)
    (hcomplete : b'.complete (Pattern.assemble ts).1 (Pattern.assemble ts).2 =
      b.complete (Pattern.assemble (t :: ts)).1 (Pattern.assemble (t :: ts)).2) :
    resolve b (t :: ts) = resolve b' ts := by
  simp only [resolve, hdefect, hcomplete]

theorem resolve_plain (h : t.kind = .text ∨ t.kind = .blank) :
    resolve b (t :: ts) = resolve (b.pushText t.value t.offset) ts := by
  refine resolve_of_complete ?_ ?_
  · rw [braceDefect?_other (by rcases h with h | h <;> simp [h])
      (by rcases h with h | h <;> simp [h]), TreeBuilder.opened_pushText]
  · rw [TreeBuilder.complete_pushText]
    rcases h with h | h <;> simp [Pattern.assemble, h]

theorem resolve_hole {hole : Hole} (h : t.kind = .hole hole) :
    resolve b (t :: ts) = resolve (b.push (.hole hole t.offset .nil)) ts := by
  refine resolve_of_complete ?_ ?_
  · rw [braceDefect?_other (by simp [h]) (by simp [h]), TreeBuilder.opened_push]
  · rw [TreeBuilder.complete_push _ _ _ _ fun _ _ => rfl]
    simp [Pattern.assemble, h, Pattern.meld]

theorem resolve_opening (h : t.kind = .openBrace) :
    resolve b (t :: ts) = resolve (b.enter t.offset) ts := by
  refine resolve_of_complete ?_ ?_
  · rw [braceDefect?_opening h]
    rfl
  · rw [TreeBuilder.complete_enter]
    simp [Pattern.assemble, h]

theorem resolve_closing (h : t.kind = .closeBrace) (hopened : b.opened ≠ []) :
    resolve b (t :: ts) = resolve b.close.2 ts := by
  refine resolve_of_complete ?_ ?_
  · obtain ⟨top, outer, hcons⟩ := List.exists_cons_of_ne_nil hopened
    rw [braceDefect?_closing h, TreeBuilder.opened_close, hcons]
    rfl
  · rw [TreeBuilder.complete_close _ _ _ hopened]
    simp [Pattern.assemble, h]

theorem resolve_unmatched (h : t.kind = .closeBrace) (hopened : b.opened = []) :
    resolve b (t :: ts) = (.error (.unmatched t.offset), ts) := by
  simp [resolve, braceDefect?_closing h, hopened]

end

theorem parseFrom_eq {tokens rest : List Token} {position : Nat}
    (hposition : position ≤ tokens.length) (hrest : tokens.drop position = rest)
    (b : TreeBuilder) :
    parseFrom tokens b position =
      ((resolve b (rest.takeWhile (·.kind != .finish))).1, tokens.length -
        ((resolve b (rest.takeWhile (·.kind != .finish))).2 ++
          rest.dropWhile (·.kind != .finish)).length) := by
  induction rest generalizing position b with
  | nil =>
      have hend : ¬ position < tokens.length := Nat.not_lt.mpr (List.drop_eq_nil_iff.mp hrest)
      have heq : position = tokens.length := by omega
      rw [parseFrom, dif_neg hend, List.takeWhile_nil, resolve_nil, heq]
      rfl
  | cons t rest ih =>
      have hlt : position < tokens.length := by
        have hlength := congrArg List.length hrest
        rw [List.length_drop, List.length_cons] at hlength
        omega
      rw [List.drop_eq_getElem_cons hlt, List.cons.injEq] at hrest
      obtain ⟨ht, hrest⟩ := hrest
      rw [parseFrom, dif_pos hlt]
      simp only [ht]
      by_cases hfinish : t.kind = .finish
      · have hlength := congrArg List.length hrest
        rw [List.length_drop] at hlength
        rw [List.takeWhile_cons_of_neg (by simp [hfinish]),
          List.dropWhile_cons_of_neg (by simp [hfinish]), resolve_nil, hfinish]
        simp only [List.nil_append, List.length_cons, Prod.mk.injEq, true_and]
        omega
      · rw [List.takeWhile_cons_of_pos (by simp [hfinish]),
          List.dropWhile_cons_of_pos (by simp [hfinish])]
        cases hkind : t.kind with
        | text | blank =>
            rw [resolve_plain (by simp [hkind])]
            exact ih hlt hrest _
        | hole hole =>
            rw [resolve_hole hkind]
            exact ih hlt hrest _
        | openBrace =>
            rw [resolve_opening hkind]
            exact ih hlt hrest _
        | closeBrace =>
            -- A brace without partner ends the call, and the rest is for the next one.
            by_cases hopened : b.opened = []
            · have hclose : b.close = (false, b) := by simp [TreeBuilder.close, hopened]
              have hlength := congrArg List.length hrest
              rw [List.length_drop] at hlength
              rw [resolve_unmatched hkind hopened, List.takeWhile_append_dropWhile]
              simp only [hclose, Prod.mk.injEq, true_and]
              omega
            · have hclose : b.close = (true, b.close.2) := by
                obtain ⟨top, outer, hcons⟩ := List.exists_cons_of_ne_nil hopened
                simp [TreeBuilder.close, hcons]
              rw [resolve_closing hkind hopened, hclose]
              exact ih hlt hrest _
        | finish => contradiction

/-- It gives what the parser of the tokens ahead gives, and stops where that one stops. -/
theorem parse_eq {c : TokenCursor} {p : Parser} (hposition : c.position ≤ c.tokens.length)
    (hrest : c.tokens.drop c.position = p.rest) :
    c.parse = (p.parse.1.map fun children => ⟨children, 0⟩,
      ⟨c.tokens, c.tokens.length - p.parse.2.rest.length⟩) := by
  rw [parse, parseFrom_eq hposition hrest]
  simp only [resolve, Parser.parse]
  cases hdefect : braceDefect? [] (p.rest.takeWhile (·.kind != .finish)) with
  | none => simp [TreeBuilder.empty, hdefect, Except.map, TreeBuilder.complete,
      TreeBuilder.completeFrom, Pattern.meld, Pattern.ofTokens]
  | some defect => simp [TreeBuilder.empty, hdefect, Except.map]

end TokenCursor

end Stencil
