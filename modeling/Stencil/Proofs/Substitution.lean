import Stencil.Proofs.Match.Alignment
import Stencil.Proofs.Pattern.Source
import Stencil.Proofs.Pattern.Traversal

/-!
# Substitution

Filling a template is substitution in its text, one token after the other: a hole gives
way to the text bound to its name, everything else stays as it is, and the first hole
without a binding is the one that is blamed.
-/

namespace Stencil

/-- What a token of a template stands for; nothing where its name is not bound. -/
def Token.valueIn (bindings : NameMap String) (token : Token) : Option String :=
  match token.kind with
  | .hole h => bindings.find? h.name
  | _ => some token.value

namespace Pattern

/-! ## Texts that follow each other -/

def follow (front back : Except UnboundHole String) : Except UnboundHole String := do
  return (← front) ++ (← back)

theorem ok_follow (front : String) (back : Except UnboundHole String) :
    follow (.ok front) back = back.map (front ++ ·) := by
  cases back <;> rfl

theorem error_follow (e : UnboundHole) (back : Except UnboundHole String) :
    follow (.error e) back = .error e := rfl

theorem empty_follow (back : Except UnboundHole String) : follow (.ok "") back = back := by
  cases back <;> simp [ok_follow, Except.map]

theorem follow_empty (front : Except UnboundHole String) : follow front (.ok "") = front := by
  cases front <;> simp [ok_follow, error_follow, Except.map]

theorem follow_assoc (front middle back : Except UnboundHole String) :
    follow (follow front middle) back = follow front (follow middle back) := by
  cases front <;> cases middle <;> cases back <;>
    simp [ok_follow, error_follow, Except.map, String.append_assoc]

section

variable (bindings : NameMap String)

theorem fill_text (content : String) (offset : Nat) (rest : Pattern) :
    (text content offset rest).fill bindings = follow (.ok content) (rest.fill bindings) := by
  rw [fill, ok_follow]

theorem fill_block (offset : Nat) (body rest : Pattern) :
    (block offset body rest).fill bindings =
      follow (.ok "\x7b") (follow (body.fill bindings)
        (follow (.ok "\x7d") (rest.fill bindings))) := by
  rw [fill]
  cases body.fill bindings <;> cases rest.fill bindings <;>
    simp [ok_follow, error_follow, Except.map, String.append_assoc]

theorem fill_consText (value : String) (offset : Nat) (p : Pattern) :
    (consText value offset p).fill bindings = follow (.ok value) (p.fill bindings) := by
  cases p with
  | text content _ rest =>
      rw [consText, fill_text, fill_text, ← follow_assoc]
      rfl
  | nil | hole _ _ _ | block _ _ _ => exact fill_text bindings value offset _

/-! ## Substitution in tokens -/

def fillToken (token : Token) : Except UnboundHole String :=
  match token.kind with
  | .hole h =>
    match bindings.find? h.name with
    | some value => .ok value
    | none => .error ⟨h.name, token.offset⟩
  | _ => .ok token.value

def substitute : List Token → Except UnboundHole String
  | [] => .ok ""
  | token :: tokens => follow (fillToken bindings token) (substitute tokens)

theorem fill_hole (h : Hole) (offset : Nat) (value : String) (rest : Pattern) :
    (hole h offset rest).fill bindings =
      follow (fillToken bindings ⟨.hole h, value, offset⟩) (rest.fill bindings) := by
  rw [fill]
  cases hvalue : bindings.find? h.name with
  | none => simp [fillToken, hvalue, error_follow]
  | some value => simp [fillToken, hvalue, ok_follow]

theorem substitute_append (tokens tokens' : List Token) :
    substitute bindings (tokens ++ tokens') =
      follow (substitute bindings tokens) (substitute bindings tokens') := by
  induction tokens with
  | nil => exact (empty_follow _).symm
  | cons token tokens ih => simp only [List.cons_append, substitute, ih, follow_assoc]

/-- The patterns behind closing braces that still wait for their partners. -/
def fillOuter : List Pattern → Except UnboundHole String
  | [] => .ok ""
  | p :: outer => follow (.ok "\x7d") (follow (p.fill bindings) (fillOuter outer))

/-- What has been assembled so far, filled, is what its tokens give. -/
theorem substitute_eq_fill {n : Nat} {cs : List Char} {ts : List Token} (h : Lexes n cs ts)
    {opened : List Nat} (hbraces : braceDefect? opened ts = none) :
    (assemble ts).2.length = opened.length ∧
      substitute bindings ts =
        follow ((assemble ts).1.fill bindings) (fillOuter bindings (assemble ts).2) := by
  induction h generalizing opened with
  | nil =>
      cases opened with
      | nil => exact ⟨rfl, (empty_follow _).symm⟩
      | cons top outer => simp [braceDefect?] at hbraces
  | @cons n c cs value rest kind ts hlexeme _ ih =>
      have hspelled := (Spelled.of_lexeme hlexeme).2
      simp only [assemble]
      cases hspelled with
      | openBrace =>
          have hinner := ih (hbraces : braceDefect? (n :: opened) ts = none)
          cases houter : (assemble ts).2 with
          | nil => simp [houter] at hinner
          | cons q outer =>
              simp only [houter] at hinner
              constructor
              · simpa using hinner.1
              · rw [substitute, hinner.2]
                simp only [List.headD_cons, List.tail_cons, fill_block, fillOuter, follow_assoc]
                rfl
      | closeBrace =>
          cases opened with
          | nil => simp [braceDefect?] at hbraces
          | cons top outer =>
              have houter := ih (hbraces : braceDefect? outer ts = none)
              constructor
              · simp [houter.1]
              · rw [substitute, houter.2]
                exact (empty_follow _).symm
      | blank | text =>
          have hrest := ih (hbraces : braceDefect? opened ts = none)
          refine ⟨hrest.1, ?_⟩
          rw [substitute, hrest.2, fill_consText, follow_assoc]
          rfl
      | @hole hole =>
          have hrest := ih (hbraces : braceDefect? opened ts = none)
          refine ⟨hrest.1, ?_⟩
          rw [substitute, hrest.2, fill_hole, follow_assoc]

theorem fillToken_of_some {token : Token} {value : String}
    (h : token.valueIn bindings = some value) : fillToken bindings token = .ok value := by
  unfold Token.valueIn at h
  unfold fillToken
  split at h <;> simp_all

theorem substitute_of_bound {tokens : List Token}
    (h : ∀ token ∈ tokens, (token.valueIn bindings).isSome = true) :
    substitute bindings tokens =
      .ok (String.join (tokens.filterMap (Token.valueIn bindings))) := by
  induction tokens with
  | nil => rfl
  | cons token tokens ih =>
      have hrest := ih fun token' htoken' => h token' (List.mem_cons_of_mem _ htoken')
      cases hvalue : token.valueIn bindings with
      | none => simpa [hvalue] using h token List.mem_cons_self
      | some value =>
          rw [substitute, hrest, fillToken_of_some bindings hvalue]
          simp [ok_follow, Except.map, hvalue, String.join_cons]

theorem substitute_of_unbound {before after : List Token} {token : Token} {h : Hole}
    (hbefore : ∀ earlier ∈ before, (earlier.valueIn bindings).isSome = true)
    (hkind : token.kind = .hole h) (hunbound : bindings.find? h.name = none) :
    substitute bindings (before ++ token :: after) = .error ⟨h.name, token.offset⟩ := by
  have htoken : fillToken bindings token = .error ⟨h.name, token.offset⟩ := by
    simp [fillToken, hkind, hunbound]
  rw [substitute_append, substitute_of_bound bindings hbefore, substitute, htoken]
  rfl

end

/-! ## Templates -/

theorem offset_of_lexes {n : Nat} {cs : List Char} {ts : List Token} (h : Lexes n cs ts)
    {before after : List Token} {token : Token}
    (htokens : ts ++ [⟨.finish, "", n + byteLength cs⟩] = before ++ token :: after) :
    token.offset = n + byteLength (before.flatMap (·.value.toList)) := by
  induction h generalizing before with
  | nil =>
      cases before with
      | nil =>
          simp only [List.nil_append, List.cons.injEq] at htokens
          simp [← htokens.1]
      | cons first before => simp at htokens
  | @cons n c cs value rest kind ts hlexeme _ ih =>
      cases before with
      | nil =>
          simp only [List.cons_append, List.nil_append, List.cons.injEq] at htokens
          simp [← htokens.1]
      | cons first before =>
          have hlength := congrArg byteLength (Spelled.of_lexeme hlexeme).1
          simp only [List.cons_append, List.cons.injEq] at htokens
          rw [byteLength_append] at hlength
          rw [hlength, ← Nat.add_assoc] at htokens
          rw [ih htokens.2, ← htokens.1]
          simp [Nat.add_assoc]

theorem exists_tokens_of_compile {s : String} {p : Pattern} (h : compile s = .ok p) :
    ∃ ts, Lexes 0 s.toList ts ∧
      lex s = .ok (ts ++ [⟨.finish, "", 0 + byteLength s.toList⟩]) ∧
      ∀ bindings, p.fill bindings =
        substitute bindings (ts ++ [⟨.finish, "", 0 + byteLength s.toList⟩]) := by
  obtain ⟨ts, hlexes, hbraces, rfl⟩ := exists_lexes_of_compile h
  refine ⟨ts, hlexes, Lexer.tokenize_of_lexes hlexes, fun bindings => ?_⟩
  have hfill := substitute_eq_fill bindings hlexes hbraces
  rw [List.eq_nil_of_length_eq_zero hfill.1, fillOuter, follow_empty] at hfill
  rw [substitute_append, hfill.2]
  exact (follow_empty _).symm

/-- A compiled template is filled, along the walk through it, by putting in the bound text
for each hole token of its source and leaving the other tokens as they are.  Where a name is
not bound, the first hole token with such a name is blamed, at the byte at which it starts. -/
theorem fill_substitutes {s : String} {p : Pattern} (h : compile s = .ok p)
    (bindings : NameMap String) :
    ∃ tokens, lex s = .ok tokens ∧
      (∀ offset, PatternTree.fill bindings ⟨p, offset⟩ = p.fill bindings) ∧
      ((∀ token ∈ tokens, (token.valueIn bindings).isSome = true) →
        p.fill bindings = .ok (String.join (tokens.filterMap (Token.valueIn bindings)))) ∧
      ∀ before token after hole, tokens = before ++ token :: after →
        (∀ earlier ∈ before, (earlier.valueIn bindings).isSome = true) →
        token.kind = .hole hole → bindings.find? hole.name = none →
        p.fill bindings = .error ⟨hole.name, token.offset⟩ ∧
          token.offset = byteLength (before.flatMap (·.value.toList)) := by
  obtain ⟨ts, hlexes, hlex, hfill⟩ := exists_tokens_of_compile h
  refine ⟨_, hlex, fun offset => PatternTree.fill_eq bindings ⟨p, offset⟩, ?_, ?_⟩
  · intro hbound
    rw [hfill bindings, substitute_of_bound bindings hbound]
  · intro before token after hole htokens hbefore hkind hunbound
    constructor
    · rw [hfill bindings, htokens, substitute_of_unbound bindings hbefore hkind hunbound]
    · simpa using offset_of_lexes hlexes htokens

/-- The text bound to the first hole looks like a hole itself and is not read again.  With
nothing bound to the second name the hole is blamed that starts behind eight other bytes. -/
theorem fill_substitutes_nested :
    ∃ p, compile "\x7b:[x] é:[[y]]\x7d" = .ok p ∧
      p.fill (.ofList [("x", ":[y]"), ("y", "\x7d")]) = .ok "\x7b:[y] é\x7d\x7d" ∧
      p.fill (.ofList [("x", "a")]) = .error ⟨"y", 8⟩ := by
  have hruns : (do
        let p ← (compile "\x7b:[x] é:[[y]]\x7d").toOption
        let tokens ← (lex "\x7b:[x] é:[[y]]\x7d").toOption
        return (p.holeNames, tokens)) =
      some (["x", "y"],
        [⟨.openBrace, "\x7b", 0⟩, ⟨.hole ⟨"x", .any, .one⟩, ":[x]", 1⟩, ⟨.blank, " ", 5⟩,
          ⟨.text, "é", 6⟩, ⟨.hole ⟨"y", .any, .block⟩, ":[[y]]", 8⟩, ⟨.closeBrace, "\x7d", 14⟩,
          ⟨.finish, "", 15⟩]) := by decide +kernel
  obtain ⟨p, tokens, hp, hlex, hruns⟩ := exists_ok_of_bind_toOption hruns
  obtain rfl := (Prod.mk.inj hruns).2
  have hbound := fill_substitutes hp (.ofList [("x", ":[y]"), ("y", "\x7d")])
  have hunbound := fill_substitutes hp (.ofList [("x", "a")])
  simp only [hlex, Except.ok.injEq, exists_eq_left'] at hbound hunbound
  have hfill := hbound.2.1 (by decide)
  have hblame := hunbound.2.2 [_, _, _, _] _ _ ⟨"y", .any, .block⟩ rfl (by decide) rfl (by decide)
  exact ⟨_, hp, hfill, hblame.1⟩

end Pattern

end Stencil
