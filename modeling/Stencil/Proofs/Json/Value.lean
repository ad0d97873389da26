import Mathlib.Data.List.Forall2
import Stencil.Proofs.Json.Token

/-!
# JSON texts

The tokens a value is written in, and a reader that takes them one by one with the lists
and objects still open on a stack.  It reads exactly the texts in which the tokens of a
value are written, and it reads that value, so a text is of one value at most.  The
indented text of a value is one of its texts.
-/

namespace Stencil

namespace Json

theorem induct {motive : Json → Prop} (null : motive null) (bool : ∀ b, motive (bool b))
    (number : ∀ n, motive (number n)) (string : ∀ text, motive (string text))
    (array : ∀ elements, (∀ v ∈ elements, motive v) → motive (array elements))
    (object : ∀ fields, (∀ field ∈ fields, motive field.2) → motive (object fields)) :
    ∀ v, motive v
  | .null => null
  | .bool b => bool b
  | .number n => number n
  | .string text => string text
  | .array elements =>
    array elements fun v _ => induct null bool number string array object v
  | .object fields =>
    object fields fun field _ => induct null bool number string array object field.2
  termination_by v => sizeOf v
  decreasing_by
    · have := List.sizeOf_lt_of_mem ‹_ ∈ _›
      simp only [Json.array.sizeOf_spec]
      omega
    · have := List.sizeOf_lt_of_mem ‹_ ∈ _›
      cases field
      simp only [Json.object.sizeOf_spec, Prod.mk.sizeOf_spec] at *
      omega

/-! ## The tokens of a value -/

mutual

def tokens : Json → List Token
  | null => [.null]
  | bool value => [.bool value]
  | number value => [.number value]
  | string value => [.string value]
  | array elements =>
    .openBracket :: ([.comma].intercalate (elementTokens elements) ++ [.closeBracket])
  | object fields => .openBrace :: ([.comma].intercalate (fieldTokens fields) ++ [.closeBrace])

def elementTokens : List Json → List (List Token)
  | [] => []
  | element :: rest => tokens element :: elementTokens rest

def fieldTokens : List (String × Json) → List (List Token)
  | [] => []
  | (key, value) :: rest => (.string key :: .colon :: tokens value) :: fieldTokens rest

end

theorem elementTokens_append (front back : List Json) :
    elementTokens (front ++ back) = elementTokens front ++ elementTokens back := by
  induction front with
  | nil => rfl
  | cons v front ih => simp [elementTokens, ih]

theorem fieldTokens_append (front back : List (String × Json)) :
    fieldTokens (front ++ back) = fieldTokens front ++ fieldTokens back := by
  induction front with
  | nil => rfl
  | cons field front ih => simp [fieldTokens, ih]

/-! ## Reading -/

/-- A list or an object that is still open: what has been read of it, and of an object
also the name whose value comes next. -/
inductive Level where
  | array (elements : List Json)
  | object (fields : List (String × Json)) (name : String)

/-- What is expected, with the open levels from the inside out. -/
inductive State where
  | value (levels : List Level)
  | element (levels : List Level)
  | firstName (levels : List Level)
  | nextName (fields : List (String × Json)) (levels : List Level)
  | colon (fields : List (String × Json)) (name : String) (levels : List Level)
  | after (value : Json) (levels : List Level)

def begin? (levels : List Level) : Token → Option State
  | .null => some (.after .null levels)
  | .bool value => some (.after (.bool value) levels)
  | .number value => some (.after (.number value) levels)
  | .string value => some (.after (.string value) levels)
  | .openBracket => some (.element levels)
  | .openBrace => some (.firstName levels)
  | _ => none

def resume? (value : Json) : List Level → Token → Option State
  | .array elements :: levels, .comma => some (.value (.array (elements ++ [value]) :: levels))
  | .array elements :: levels, .closeBracket =>
    some (.after (.array (elements ++ [value])) levels)
  | .object fields name :: levels, .comma => some (.nextName (fields ++ [(name, value)]) levels)
  | .object fields name :: levels, .closeBrace =>
    some (.after (.object (fields ++ [(name, value)])) levels)
  | _, _ => none

def State.step? : State → Token → Option State
  | .value levels, t => begin? levels t
  | .element levels, t =>
    if t = .closeBracket then some (.after (.array []) levels) else begin? (.array [] :: levels) t
  | .firstName levels, .closeBrace => some (.after (.object []) levels)
  | .firstName levels, .string name => some (.colon [] name levels)
  | .nextName fields levels, .string name => some (.colon fields name levels)
  | .colon fields name levels, .colon => some (.value (.object fields name :: levels))
  | .after v levels, t => resume? v levels t
  | _, _ => none

def State.run? (s : State) (ts : List Token) : Option State := ts.foldlM State.step? s

def ofTokens? (ts : List Token) : Option Json :=
  match (State.value []).run? ts with
  | some (.after v []) => some v
  | _ => none

def read? (text : String) : Option Json := (scan? text.toList).bind ofTokens?

/-- The text has the tokens of the value, with any blanks. -/
def WrittenAs (v : Json) (text : String) : Prop := Writes v.tokens text.toList

/-! ## What has been read -/

def leading (items : List (List Token)) : List Token := items.flatMap (· ++ [.comma])

def Level.tokens : Level → List Token
  | .array elements => .openBracket :: leading (elementTokens elements)
  | .object fields name =>
    .openBrace :: (leading (fieldTokens fields) ++ [.string name, .colon])

def openTokens : List Level → List Token
  | [] => []
  | level :: levels => openTokens levels ++ level.tokens

/-- The tokens that lead to the state. -/
def State.tokens : State → List Token
  | .value levels => openTokens levels
  | .element levels => openTokens levels ++ [.openBracket]
  | .firstName levels => openTokens levels ++ [.openBrace]
  | .nextName fields levels => openTokens levels ++ .openBrace :: leading (fieldTokens fields)
  | .colon fields name levels =>
    openTokens levels ++ .openBrace :: (leading (fieldTokens fields) ++ [.string name])
  | .after v levels => openTokens levels ++ v.tokens

theorem intercalate_append_singleton (items : List (List Token)) (item : List Token) :
    [.comma].intercalate (items ++ [item]) = leading items ++ item := by
  induction items with
  | nil => simp [leading]
  | cons first items ih =>
      rw [List.cons_append, List.intercalate_cons_of_ne_nil (by simp), ih]
      simp [leading]

@[simp] theorem leading_append (front back : List (List Token)) :
    leading (front ++ back) = leading front ++ leading back := List.flatMap_append

theorem tokens_array_append (elements : List Json) (v : Json) :
    (array (elements ++ [v])).tokens =
      .openBracket :: (leading (elementTokens elements) ++ v.tokens ++ [.closeBracket]) := by
  simp only [tokens, elementTokens_append, elementTokens, intercalate_append_singleton]

theorem tokens_object_append (fields : List (String × Json)) (name : String) (v : Json) :
    (object (fields ++ [(name, v)])).tokens =
      .openBrace :: (leading (fieldTokens fields) ++ .string name :: .colon :: v.tokens ++
        [.closeBrace]) := by
  simp only [tokens, fieldTokens_append, fieldTokens, intercalate_append_singleton]

section

variable {s s' : State} {t : Token} {ts : List Token} {v : Json} {levels : List Level}

theorem tokens_begin? (h : begin? levels t = some s) : s.tokens = openTokens levels ++ [t] := by
  cases t <;> simp only [begin?, Option.some.injEq, reduceCtorEq] at h <;> subst h <;> rfl

theorem tokens_resume? (h : resume? v levels t = some s) :
    s.tokens = openTokens levels ++ v.tokens ++ [t] := by
  unfold resume? at h
  split at h
  all_goals
    simp only [Option.some.injEq, reduceCtorEq] at h
    try subst h
  · simp [State.tokens, openTokens, Level.tokens, elementTokens_append, elementTokens, leading]
  · simp [State.tokens, openTokens, Level.tokens, tokens_array_append]
  · simp [State.tokens, openTokens, Level.tokens, fieldTokens_append, fieldTokens, leading]
  · simp [State.tokens, openTokens, Level.tokens, tokens_object_append]

theorem tokens_step? (h : s.step? t = some s') : s'.tokens = s.tokens ++ [t] := by
  unfold State.step? at h
  split at h
  · exact tokens_begin? h
  · split at h
    · obtain rfl := Option.some.inj h
      subst t
      simp [State.tokens, tokens, elementTokens]
    · rw [tokens_begin? h]
      simp [State.tokens, openTokens, Level.tokens, elementTokens, leading]
  · obtain rfl := Option.some.inj h
    simp [State.tokens, tokens, fieldTokens]
  · obtain rfl := Option.some.inj h
    simp [State.tokens, fieldTokens, leading]
  · obtain rfl := Option.some.inj h
    simp [State.tokens]
  · obtain rfl := Option.some.inj h
    simp [State.tokens, openTokens, Level.tokens]
  · exact tokens_resume? h
  · simp at h

theorem tokens_run? (h : s.run? ts = some s') : s'.tokens = s.tokens ++ ts := by
  induction ts generalizing s with
  | nil =>
      obtain rfl := Option.some.inj h
      simp
  | cons t ts ih =>
      obtain ⟨next, hstep, hrun⟩ := Option.bind_eq_some_iff.mp h
      rw [ih hrun, tokens_step? hstep, List.append_assoc, List.singleton_append]

/-! ## What can be read -/

def State.Expects (s : State) (levels : List Level) : Prop :=
  ∀ t, t ≠ .closeBracket → s.step? t = begin? levels t

theorem expects_value (levels : List Level) : (State.value levels).Expects levels :=
  fun _ _ => rfl

theorem expects_element (levels : List Level) :
    (State.element levels).Expects (.array [] :: levels) := fun _ ht => if_neg ht

theorem run?_cons (s : State) (t : Token) (ts : List Token) :
    s.run? (t :: ts) = (s.step? t).bind (·.run? ts) := List.foldlM_cons

def Reads (v : Json) : Prop :=
  ∀ (s : State) (levels : List Level) (ts : List Token), s.Expects levels →
    s.run? (v.tokens ++ ts) = (State.after v levels).run? ts

theorem run?_elements {elements : List Json} (h : ∀ v ∈ elements, Reads v)
    (hne : elements ≠ []) {front : List Json} (hs : s.Expects (.array front :: levels))
    (ts : List Token) :
    s.run? ([.comma].intercalate (elementTokens elements) ++ .closeBracket :: ts) =
      (State.after (.array (front ++ elements)) levels).run? ts := by
  induction elements generalizing s front with
  | nil => exact absurd rfl hne
  | cons v elements ih =>
      obtain ⟨hv, hrest⟩ := List.forall_mem_cons.mp h
      cases elements with
      | nil =>
          rw [elementTokens, elementTokens, List.intercalate_singleton, hv s _ _ hs, run?_cons]
          rfl
      | cons v' elements =>
          rw [elementTokens, List.intercalate_cons_of_ne_nil (by simp [elementTokens]),
            List.append_assoc, List.append_assoc, hv s _ _ hs, List.singleton_append, run?_cons]
          -- behind the comma a value may come again, with this element read
          refine (ih hrest (by simp) (expects_value _)).trans ?_
          rw [List.append_assoc, List.singleton_append]

theorem run?_fields {fields : List (String × Json)} (h : ∀ field ∈ fields, Reads field.2)
    (hne : fields ≠ []) {front : List (String × Json)}
    (hs : ∀ name, s.step? (.string name) = some (.colon front name levels)) (ts : List Token) :
    s.run? ([.comma].intercalate (fieldTokens fields) ++ .closeBrace :: ts) =
      (State.after (.object (front ++ fields)) levels).run? ts := by
  induction fields generalizing s front with
  | nil => exact absurd rfl hne
  | cons field fields ih =>
      obtain ⟨name, v⟩ := field
      obtain ⟨hv, hrest⟩ := List.forall_mem_cons.mp h
      have hfirst : ∀ more, s.run? (.string name :: .colon :: v.tokens ++ more) =
          (State.after v (.object front name :: levels)).run? more := by
        intro more
        rw [List.cons_append, run?_cons, hs, List.cons_append]
        exact hv _ _ more (expects_value _)
      cases fields with
      | nil =>
          rw [fieldTokens, fieldTokens, List.intercalate_singleton, hfirst, run?_cons]
          rfl
      | cons field' fields =>
          rw [fieldTokens, List.intercalate_cons_of_ne_nil (by simp [fieldTokens]),
            List.append_assoc, List.append_assoc, hfirst, List.singleton_append, run?_cons]
          refine (ih hrest (by simp) (fun _ => rfl)).trans ?_
          rw [List.append_assoc, List.singleton_append]

theorem reads_of_begin? (htokens : v.tokens = [t]) (ht : t ≠ .closeBracket)
    (h : ∀ levels, begin? levels t = some (.after v levels)) : Reads v := by
  intro s levels ts hs
  rw [htokens, List.singleton_append, run?_cons, hs t ht, h, Option.bind_some]

theorem reads (v : Json) : Reads v := by
  induction v using induct with
  | null => exact reads_of_begin? (by rw [tokens]) (by simp) fun _ => rfl
  | bool b => exact reads_of_begin? (by rw [tokens]) (by simp) fun _ => rfl
  | number n => exact reads_of_begin? (by rw [tokens]) (by simp) fun _ => rfl
  | string text => exact reads_of_begin? (by rw [tokens]) (by simp) fun _ => rfl
  | array elements ih =>
      intro s levels ts hs
      rw [tokens, List.cons_append, run?_cons, hs .openBracket (by simp), List.append_assoc]
      cases elements with
      | nil => rfl
      | cons v elements =>
          refine (run?_elements ih (by simp) (expects_element levels) ts).trans ?_
          rfl
  | object fields ih =>
      intro s levels ts hs
      rw [tokens, List.cons_append, run?_cons, hs .openBrace (by simp), List.append_assoc]
      cases fields with
      | nil => rfl
      | cons field fields =>
          exact run?_fields (s := .firstName levels) ih (by simp) (fun _ => rfl) ts

theorem ofTokens?_eq_some_iff : ofTokens? ts = some v ↔ ts = v.tokens := by
  unfold ofTokens?
  constructor
  · intro h
    split at h
    · rename_i hrun
      obtain rfl := Option.some.inj h
      exact (tokens_run? hrun).symm
    · simp at h
  · rintro rfl
    have hrun := reads v _ _ [] (expects_value [])
    rw [List.append_nil] at hrun
    rw [hrun]
    rfl

theorem read?_eq_some_iff {text : String} : read? text = some v ↔ v.WrittenAs text := by
  simp only [read?, WrittenAs, Option.bind_eq_some_iff, ofTokens?_eq_some_iff, scan?_eq_some_iff,
    exists_eq_right]

example : (read? "\x7b\"a\" :\t[10,true,\"\\ud83d\\uDE00\\/\"]\x7d\r\n").map pretty =
    some "\x7b\n  \"a\": [\n    10,\n    true,\n    \"😀/\"\n  ]\n\x7d" := by
  decide +kernel

example : ∀ text ∈ ["[1,]", "[01]", "1 2", "\"\n\"", "\"\\ud83d\"", "\x7b\"a\":1,\x7d"],
    (read? text).isNone = true := by
  decide +kernel

theorem WrittenAs.unique {v' : Json} {text : String} (h : v.WrittenAs text)
    (h' : v'.WrittenAs text) : v = v' :=
  Option.some.inj ((read?_eq_some_iff.mpr h).symm.trans (read?_eq_some_iff.mpr h'))

end

/-! ## Indented texts -/

/-- The text has the tokens, and other tokens may follow unless digits do. -/
def Prints (ts : List Token) (text : String) : Prop :=
  ∀ {more : List Token} {rest : List Char}, Writes more rest → EndsNumber rest →
    Writes (ts ++ more) (text.toList ++ rest)

section

variable {ts more : List Token} {t : Token} {text : String} {rest : List Char}

theorem prints_of_spelled (h : t.Spelled text.toList) : Prints [t] text :=
  fun hmore hends => .cons h (fun _ _ => hends) hmore

theorem writes_newline (depth : Nat) (h : Writes more rest) :
    Writes more ((newline depth).toList ++ rest) := by
  have hblanks : ∀ n, Writes more (List.replicate n ' ' ++ rest) := by
    intro n
    induction n with
    | zero => exact h
    | succ n ih => exact .blank rfl ih
  simp only [newline, String.toList_append, String.toList_ofList, List.append_assoc]
  exact .blank rfl (hblanks _)

theorem endsNumber_newline (depth : Nat) (rest : List Char) :
    EndsNumber ((newline depth).toList ++ rest) := by
  simp only [newline, String.toList_append, List.append_assoc]
  exact endsNumber_cons (by decide) _

theorem prints_items {items : List (List Token)} {texts : List String}
    (h : List.Forall₂ (fun ts text => Prints ts text) items texts) (hne : items ≠ [])
    (depth : Nat) :
    Prints ([.comma].intercalate items) (("," ++ newline depth).intercalate texts) := by
  induction h with
  | nil => exact absurd rfl hne
  | cons hitem hrest ih =>
      cases hrest with
      | nil =>
          rw [List.intercalate_singleton, String.intercalate_singleton]
          exact hitem
      | cons hitem' hrest' =>
          intro more rest hmore hends
          have htail := writes_newline depth (ih (by simp) hmore hends)
          -- the comma behind the item ends it, also if it is a number
          have hcomma : Token.Spelled .comma ",".toList := .fixed (by decide)
          have hall := hitem (.cons hcomma (ends_of_ne_number (by simp) _) htail)
            (endsNumber_cons (by decide) _)
          simpa only [List.intercalate_cons_cons, String.intercalate_cons_cons,
            String.toList_append, List.append_assoc, List.cons_append, List.nil_append] using hall

theorem prints_bracketed {first last : Token} {opening closing : String}
    (hopening : first.Spelled opening.toList) (hfirst : ∀ n, first ≠ .number n)
    (hclosing : last.Spelled closing.toList) {items : List (List Token)} {texts : List String}
    (h : List.Forall₂ (fun ts text => Prints ts text) items texts) (depth : Nat) :
    Prints (first :: ([.comma].intercalate items ++ [last]))
      (bracketed opening closing depth texts) := by
  intro more rest hmore hends
  have hlast : Writes (last :: more) (closing.toList ++ rest) :=
    .cons hclosing (fun _ _ => hends) hmore
  have hnumber : ∀ rest, first.Ends rest := ends_of_ne_number hfirst
  cases h with
  | nil => simpa [bracketed] using Writes.cons hopening (hnumber _) hlast
  | cons hitem hrest =>
      have hitems := prints_items (.cons hitem hrest) (by simp) (depth + 1)
        (writes_newline depth hlast) (endsNumber_newline depth _)
      have hall := Writes.cons hopening (hnumber _) (writes_newline (depth + 1) hitems)
      simpa only [bracketed, List.isEmpty_cons, Bool.false_eq_true, if_false, String.toList_append,
        List.append_assoc, List.cons_append, List.nil_append] using hall

theorem prints_field {v : Json} {key : String} (h : Prints v.tokens text) :
    Prints (.string key :: .colon :: v.tokens) (quote key ++ ": " ++ text) := by
  intro more rest hmore hends
  have hcolon : Token.Spelled .colon ":".toList := .fixed (by decide)
  have hvalue : Writes (.colon :: v.tokens ++ more) (":".toList ++ ' ' :: (text.toList ++ rest)) :=
    .cons hcolon (ends_of_ne_number (by simp) _) (.blank rfl (h hmore hends))
  have hall := Writes.cons (spelled_quote key) (ends_of_ne_number (by simp) _) hvalue
  simpa [String.toList_append] using hall

theorem forall₂_prettyElements {elements : List Json} {depth : Nat}
    (h : ∀ v ∈ elements, Prints v.tokens (prettyAt depth v)) :
    List.Forall₂ (fun ts text => Prints ts text) (elementTokens elements)
      (prettyElements depth elements) := by
  induction elements with
  | nil => exact .nil
  | cons v elements ih =>
      obtain ⟨hv, hrest⟩ := List.forall_mem_cons.mp h
      rw [elementTokens, prettyElements]
      exact .cons hv (ih hrest)

theorem forall₂_prettyFields {fields : List (String × Json)} {depth : Nat}
    (h : ∀ field ∈ fields, Prints field.2.tokens (prettyAt depth field.2)) :
    List.Forall₂ (fun ts text => Prints ts text) (fieldTokens fields)
      (prettyFields depth fields) := by
  induction fields with
  | nil => exact .nil
  | cons field fields ih =>
      obtain ⟨hv, hrest⟩ := List.forall_mem_cons.mp h
      rw [fieldTokens, prettyFields]
      exact .cons (prints_field hv) (ih hrest)

theorem prints_prettyAt (v : Json) (depth : Nat) : Prints v.tokens (prettyAt depth v) := by
  induction v using induct generalizing depth with
  | null =>
      rw [tokens, prettyAt]
      exact prints_of_spelled (.fixed (by decide))
  | bool b =>
      rw [tokens, prettyAt]
      cases b with
      | false => exact prints_of_spelled (.fixed (by decide))
      | true => exact prints_of_spelled (.fixed (by decide))
  | number n =>
      rw [tokens, prettyAt]
      refine prints_of_spelled (.number ?_)
      rw [Nat.toString_eq_repr, Nat.toList_repr]
      exact isNumber_toDigits n
  | string text =>
      rw [tokens, prettyAt]
      exact prints_of_spelled (spelled_quote text)
  | array elements ih =>
      rw [tokens, prettyAt]
      exact prints_bracketed (.fixed (by decide)) (by simp) (.fixed (by decide))
        (forall₂_prettyElements fun v hv => ih v hv (depth + 1)) depth
  | object fields ih =>
      rw [tokens, prettyAt]
      exact prints_bracketed (.fixed (by decide)) (by simp) (.fixed (by decide))
        (forall₂_prettyFields fun field hfield => ih field hfield (depth + 1)) depth

end

theorem writtenAs_pretty (v : Json) : v.WrittenAs v.pretty := by
  simpa [WrittenAs, pretty] using prints_prettyAt v 0 .nil endsNumber_nil

end Json

end Stencil
