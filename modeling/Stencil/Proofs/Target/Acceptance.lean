import Mathlib.Data.List.Induction
import Stencil.Proofs.Target.Tiling

/-!
# Accepted targets

A list of tokens makes a target exactly if the tokens tile the source and their
brackets nest.  Tiling is looked at first, so a bracket is blamed only where the
tokens tile.
-/

namespace Stencil

/-! ## Bracket words -/

/-- A word in which each bracket is closed by one of its own shape, inner ones first. -/
inductive BracketWord : List LexemeKind → Prop where
  | nil : BracketWord []
  | other {kind : LexemeKind} {rest : List LexemeKind} (hopening : ∀ d, kind ≠ .opening d)
      (hclosing : ∀ d, kind ≠ .closing d) (hrest : BracketWord rest) : BracketWord (kind :: rest)
  | group (d : Delimiter) {inner rest : List LexemeKind} (hinner : BracketWord inner)
      (hrest : BracketWord rest) : BracketWord (.opening d :: (inner ++ .closing d :: rest))

/-- The brackets that a word leaves open, innermost first, each with its place in the
word. -/
inductive LeavesOpen : List LexemeKind → List (Nat × Delimiter) → Prop where
  | word {kinds : List LexemeKind} (hword : BracketWord kinds) : LeavesOpen kinds []
  | opening (d : Delimiter) {outer inner : List LexemeKind} {stack : List (Nat × Delimiter)}
      (houter : LeavesOpen outer stack) (hinner : BracketWord inner) :
      LeavesOpen (outer ++ .opening d :: inner) ((outer.length, d) :: stack)

/-- What is wrong with brackets that do not nest: the first closer that finds no open
bracket, or one of another shape, or else the innermost bracket that stays open. -/
inductive BracketDefect (kinds : List LexemeKind) : BracketFault → Prop where
  | unmatched {before after : List LexemeKind} {d : Delimiter}
      (hkinds : kinds = before ++ .closing d :: after) (hbefore : LeavesOpen before []) :
      BracketDefect kinds (.unmatched before.length)
  | mismatched {before after : List LexemeKind} {o : Nat} {d d' : Delimiter}
      {stack : List (Nat × Delimiter)} (hkinds : kinds = before ++ .closing d :: after)
      (hbefore : LeavesOpen before ((o, d') :: stack)) (hne : d' ≠ d) :
      BracketDefect kinds (.mismatched before.length)
  | unclosed {o : Nat} {d : Delimiter} {stack : List (Nat × Delimiter)}
      (hkinds : LeavesOpen kinds ((o, d) :: stack)) : BracketDefect kinds (.unclosed o)

section

variable {kinds kinds' : List LexemeKind} {stack : List (Nat × Delimiter)} {d : Delimiter}

theorem BracketWord.append (h : BracketWord kinds) (h' : BracketWord kinds') :
    BracketWord (kinds ++ kinds') := by
  induction h with
  | nil => exact h'
  | other hopening hclosing _ ih => exact .other hopening hclosing ih
  | group d hinner _ _ ih =>
      rw [List.cons_append, List.append_assoc, List.cons_append]
      exact .group d hinner ih

theorem LeavesOpen.append (h : LeavesOpen kinds stack) (h' : BracketWord kinds') :
    LeavesOpen (kinds ++ kinds') stack := by
  cases h with
  | word hword => exact .word (hword.append h')
  | opening d houter hinner =>
      rw [List.append_assoc, List.cons_append]
      exact .opening d houter (hinner.append h')

theorem LeavesOpen.close {o : Nat} (h : LeavesOpen kinds ((o, d) :: stack)) :
    LeavesOpen (kinds ++ [.closing d]) stack := by
  cases h with
  | opening d houter hinner =>
      rw [List.append_assoc, List.cons_append]
      exact houter.append (.group d hinner .nil)

theorem leavesOpen_cases (kinds : List LexemeKind) :
    (∃ stack, LeavesOpen kinds stack) ∨
      ∃ before d after stack, kinds = before ++ .closing d :: after ∧
        LeavesOpen before stack ∧ ∀ top ∈ stack.head?, top.2 ≠ d := by
  induction kinds using List.reverseRecOn with
  | nil => exact .inl ⟨[], .word .nil⟩
  | append_singleton kinds kind ih =>
      rcases ih with ⟨stack, hstack⟩ | ⟨before, d, after, stack, rfl, hbefore, hne⟩
      · cases kind with
        | opening d => exact .inl ⟨_, .opening d hstack .nil⟩
        | closing d =>
            by_cases hne : ∀ top ∈ stack.head?, top.2 ≠ d
            · exact .inr ⟨kinds, d, [], stack, rfl, hstack, hne⟩
            · cases stack with
              | nil => simp at hne
              | cons top outer =>
                  obtain rfl : top.2 = d := by simpa using hne
                  exact .inl ⟨outer, hstack.close⟩
        | blank | word | literal | comment | punct =>
            exact .inl ⟨stack, hstack.append (.other (by simp) (by simp) .nil)⟩
      · exact .inr ⟨before, d, after ++ [kind], stack, by simp, hbefore, hne⟩

theorem bracketWord_or_defect (kinds : List LexemeKind) :
    BracketWord kinds ∨ ∃ fault, BracketDefect kinds fault := by
  rcases leavesOpen_cases kinds with ⟨stack, hstack⟩ |
    ⟨before, d, after, stack, hkinds, hbefore, hne⟩
  · cases hstack with
    | word hword => exact .inl hword
    | opening d houter hinner => exact .inr ⟨_, .unclosed (.opening d houter hinner)⟩
  · cases stack with
    | nil => exact .inr ⟨_, .unmatched hkinds hbefore⟩
    | cons top outer => exact .inr ⟨_, .mismatched hkinds hbefore (hne top rfl)⟩

/-! ### Checking bracket words -/

private theorem map_append_map (result : Except BracketFault (List (Nat × Nat)))
    (pairs pairs' : List (Nat × Nat)) :
    (result.map (pairs' ++ ·)).map (pairs ++ ·) = result.map (pairs ++ pairs' ++ ·) := by
  cases result <;> simp [Except.map]

theorem BracketWord.bracketPairs_append (h : BracketWord kinds) (index : Nat)
    (stack : List (Nat × Delimiter)) (rest : List LexemeKind) :
    ∃ pairs, bracketPairs index stack (kinds ++ rest) =
      (bracketPairs (index + kinds.length) stack rest).map (pairs ++ ·) := by
  induction h generalizing index stack rest with
  | nil => exact ⟨[], by cases h : bracketPairs index stack rest <;> simp [h, Except.map]⟩
  | @other kind kinds hopening hclosing _ ih =>
      obtain ⟨pairs, hpairs⟩ := ih (index + 1) stack rest
      refine ⟨pairs, ?_⟩
      rw [List.cons_append, bracketPairs, hpairs, List.length_cons, Nat.add_right_comm,
        Nat.add_assoc]
      · exact hopening
      · exact hclosing
  | @group d inner after _ _ ihInner ihAfter =>
      obtain ⟨pairs, hpairs⟩ :=
        ihInner (index + 1) ((index, d) :: stack) (.closing d :: (after ++ rest))
      obtain ⟨pairs', hpairs'⟩ := ihAfter (index + 1 + inner.length + 1) stack rest
      refine ⟨pairs ++ (index, index + 1 + inner.length) :: pairs', ?_⟩
      have hlength : index + (LexemeKind.opening d :: (inner ++ .closing d :: after)).length =
          index + 1 + inner.length + 1 + after.length := by
        simp only [List.length_cons, List.length_append]
        omega
      rw [List.cons_append, List.append_assoc, List.cons_append, bracketPairs, hpairs, hlength]
      simp only [bracketPairs, if_true, hpairs']
      cases bracketPairs (index + 1 + inner.length + 1 + after.length) stack rest <;>
        simp [Except.map]

/-- The check comes past a word with the brackets on its stack that the word leaves open. -/
theorem LeavesOpen.bracketPairs_append (h : LeavesOpen kinds stack) (rest : List LexemeKind) :
    ∃ pairs, bracketPairs 0 [] (kinds ++ rest) =
      (bracketPairs kinds.length stack rest).map (pairs ++ ·) := by
  induction h generalizing rest with
  | word hword => simpa using hword.bracketPairs_append 0 [] rest
  | @opening d outer inner stack _ hinner ih =>
      obtain ⟨pairs, hpairs⟩ := ih (.opening d :: (inner ++ rest))
      obtain ⟨pairs', hpairs'⟩ :=
        hinner.bracketPairs_append (outer.length + 1) ((outer.length, d) :: stack) rest
      refine ⟨pairs ++ pairs', ?_⟩
      rw [List.append_assoc, List.cons_append, hpairs, bracketPairs, hpairs', map_append_map,
        List.length_append, List.length_cons, Nat.add_right_comm, Nat.add_assoc]

theorem exists_bracketPairs_of_bracketWord (h : BracketWord kinds) :
    ∃ pairs, bracketPairs 0 [] kinds = .ok pairs := by
  obtain ⟨pairs, hpairs⟩ := (LeavesOpen.word h).bracketPairs_append []
  rw [List.append_nil] at hpairs
  exact ⟨_, hpairs⟩

theorem bracketPairs_of_defect {fault : BracketFault} (h : BracketDefect kinds fault) :
    bracketPairs 0 [] kinds = .error fault := by
  cases h with
  | unmatched hkinds hbefore =>
      obtain ⟨pairs, hpairs⟩ := hbefore.bracketPairs_append (.closing _ :: _)
      rw [hkinds, hpairs]
      rfl
  | mismatched hkinds hbefore hne =>
      obtain ⟨pairs, hpairs⟩ := hbefore.bracketPairs_append (.closing _ :: _)
      rw [hkinds, hpairs, bracketPairs, if_neg hne]
      rfl
  | unclosed hkinds =>
      obtain ⟨pairs, hpairs⟩ := hkinds.bracketPairs_append []
      rw [List.append_nil] at hpairs
      rw [hpairs]
      rfl

end

/-! ### Places of defects -/

def BracketFault.index : BracketFault → Nat
  | mismatched i | unmatched i | unclosed i => i

def BracketFault.fault : BracketFault → TargetFault
  | mismatched _ => .mismatchedCloser
  | unmatched _ => .unmatchedCloser
  | unclosed _ => .unclosedOpener

theorem BracketDefect.index_lt {kinds : List LexemeKind} {fault : BracketFault}
    (h : BracketDefect kinds fault) : fault.index < kinds.length := by
  cases h with
  | unmatched hkinds _ | mismatched hkinds _ _ => simp [hkinds, BracketFault.index]
  | unclosed hkinds => cases hkinds; simp [BracketFault.index]

/-! ## Tilings -/

def IsBoundary (source : String) (n : Nat) : Prop :=
  ∃ front back, source.toList = front ++ back ∧ byteLength front = n

theorem IsBoundary.le_byteLength {source : String} {n : Nat} (h : IsBoundary source n) :
    n ≤ byteLength source.toList := by
  obtain ⟨front, back, hsource, rfl⟩ := h
  rw [hsource, byteLength_append]
  exact Nat.le_add_right _ _

theorem IsBoundary.exists_split {source : String} {n : Nat} (h : IsBoundary source n)
    {front cs : List Char} (hsource : source.toList = front ++ cs) (hfront : byteLength front ≤ n) :
    ∃ text back, cs = text ++ back ∧ byteLength text = n - byteLength front := by
  obtain ⟨front', back, hsource', rfl⟩ := h
  rcases List.append_eq_append_iff.mp (hsource.symm.trans hsource') with
    ⟨text, rfl, hcs⟩ | ⟨text, rfl, hback⟩
  · exact ⟨text, back, hcs, by simp⟩
  · rw [byteLength_append] at hfront ⊢
    exact ⟨[], cs, rfl, by simp only [byteLength_nil]; omega⟩

namespace Target

/-- The tokens cut the source from byte `start` to byte `stop` into stretches of whole
characters, none of them empty. -/
structure Tiles (source : String) (start : Nat) (tokens : List Token) (stop : Nat) : Prop where
  contiguous : start :: tokens.map (·.span.stop) = tokens.map (·.span.start) ++ [stop]
  nonempty : ∀ token ∈ tokens, token.span.start < token.span.stop
  boundary : ∀ token ∈ tokens, IsBoundary source token.span.stop

/-- What is wrong with tokens that make no target: the first one that breaks the tiling,
or else that they stop short, or else a bracket. -/
inductive Defect (source : String) (tokens : List Token) : TargetError → Prop where
  | notTiling {before after : List Token} {token : Token} {stop : Nat}
      (htokens : tokens = before ++ token :: after) (hbefore : Tiles source 0 before stop)
      (hstart : token.span.start ≠ stop) : Defect source tokens ⟨stop, .notTiling⟩
  | outOfBounds {before after : List Token} {token : Token}
      (htokens : tokens = before ++ token :: after)
      (hbefore : Tiles source 0 before token.span.start)
      (hspan : token.span.stop ≤ token.span.start ∨ byteLength source.toList < token.span.stop) :
      Defect source tokens ⟨token.span.start, .outOfBounds⟩
  | splitsCharacter {before after : List Token} {token : Token}
      (htokens : tokens = before ++ token :: after)
      (hbefore : Tiles source 0 before token.span.start)
      (hnonempty : token.span.start < token.span.stop)
      (hlength : token.span.stop ≤ byteLength source.toList)
      (hsplit : ¬ IsBoundary source token.span.stop) :
      Defect source tokens ⟨token.span.stop, .splitsCharacter⟩
  | notCovering {stop : Nat} (htiles : Tiles source 0 tokens stop)
      (hshort : stop < byteLength source.toList) : Defect source tokens ⟨stop, .notCovering⟩
  | bracket {fault : BracketFault} {token : Token}
      (htiles : Tiles source 0 tokens (byteLength source.toList))
      (hdefect : BracketDefect (tokens.map (·.kind)) fault)
      (htoken : tokens[fault.index]? = some token) :
      Defect source tokens ⟨token.span.start, fault.fault⟩

section

variable {source : String} {start stop : Nat} {token : Token} {tokens : List Token}

theorem tiles_nil_iff : Tiles source start [] stop ↔ start = stop :=
  ⟨fun h => by simpa using h.contiguous, fun h => ⟨by simp [h], by simp, by simp⟩⟩

theorem tiles_cons_iff :
    Tiles source start (token :: tokens) stop ↔
      (token.span.start = start ∧ start < token.span.stop ∧ IsBoundary source token.span.stop) ∧
        Tiles source token.span.stop tokens stop := by
  constructor
  · rintro ⟨hcontiguous, hnonempty, hboundary⟩
    simp only [List.map_cons, List.cons_append, List.cons.injEq] at hcontiguous
    have hlt := hnonempty token (by simp)
    exact ⟨⟨hcontiguous.1.symm, by omega, hboundary token (by simp)⟩, hcontiguous.2,
      fun t ht => hnonempty t (by simp [ht]), fun t ht => hboundary t (by simp [ht])⟩
  · rintro ⟨⟨rfl, hlt, hboundary⟩, hrest⟩
    refine ⟨by simp [hrest.contiguous], ?_, ?_⟩
    · simpa using ⟨hlt, hrest.nonempty⟩
    · simpa using ⟨hboundary, hrest.boundary⟩

theorem Tiles.le_byteLength (h : Tiles source start tokens stop)
    (hstart : IsBoundary source start) :
    stop ≤ byteLength source.toList := by
  induction tokens generalizing start with
  | nil => exact tiles_nil_iff.mp h ▸ hstart.le_byteLength
  | cons token tokens ih =>
      obtain ⟨⟨_, _, hboundary⟩, hrest⟩ := tiles_cons_iff.mp h
      exact ih hrest hboundary

theorem tiles_cases (source : String) (start : Nat) (tokens : List Token) :
    (∃ stop, Tiles source start tokens stop) ∨
      ∃ before token after stop, tokens = before ++ token :: after ∧
        Tiles source start before stop ∧
        ¬ (token.span.start = stop ∧ stop < token.span.stop ∧
          IsBoundary source token.span.stop) := by
  induction tokens generalizing start with
  | nil => exact .inl ⟨start, tiles_nil_iff.mpr rfl⟩
  | cons token tokens ih =>
      by_cases hfits : token.span.start = start ∧ start < token.span.stop ∧
          IsBoundary source token.span.stop
      · rcases ih token.span.stop with ⟨stop, hstop⟩ |
          ⟨before, next, after, stop, rfl, hbefore, hne⟩
        · exact .inl ⟨stop, tiles_cons_iff.mpr ⟨hfits, hstop⟩⟩
        · exact .inr ⟨token :: before, next, after, stop, rfl,
            tiles_cons_iff.mpr ⟨hfits, hbefore⟩, hne⟩
      · exact .inr ⟨[], token, tokens, start, rfl, tiles_nil_iff.mpr rfl, hfits⟩

theorem tiles_or_defect (source : String) (tokens : List Token) :
    Tiles source 0 tokens (byteLength source.toList) ∧ BracketWord (tokens.map (·.kind)) ∨
      ∃ e, Defect source tokens e := by
  have hzero : IsBoundary source 0 := ⟨[], source.toList, rfl, rfl⟩
  rcases tiles_cases source 0 tokens with ⟨stop, htiles⟩ |
    ⟨before, token, after, stop, htokens, hbefore, hbreaks⟩
  · rcases Nat.eq_or_lt_of_le (htiles.le_byteLength hzero) with rfl | hshort
    · rcases bracketWord_or_defect (tokens.map (·.kind)) with hword | ⟨fault, hdefect⟩
      · exact .inl ⟨htiles, hword⟩
      · have hindex : fault.index < tokens.length := by simpa using hdefect.index_lt
        exact .inr ⟨_, .bracket htiles hdefect (List.getElem?_eq_getElem hindex)⟩
    · exact .inr ⟨_, .notCovering htiles hshort⟩
  · by_cases hstart : token.span.start = stop
    · subst hstart
      by_cases hspan : token.span.stop ≤ token.span.start ∨
          byteLength source.toList < token.span.stop
      · exact .inr ⟨_, .outOfBounds htokens hbefore hspan⟩
      · exact .inr ⟨_, .splitsCharacter htokens hbefore (by omega) (by omega)
          fun hboundary => hbreaks ⟨rfl, by omega, hboundary⟩⟩
    · exact .inr ⟨_, .notTiling htokens hbefore hstart⟩

end

/-! ## Cutting along tokens -/

theorem bracketError_eq (offsets : Array Nat) (fault : BracketFault) :
    bracketError offsets fault = ⟨offsets.getD fault.index 0, fault.fault⟩ := by
  cases fault <;> rfl

section

variable {source : String} {start stop : Nat} {tokens : List Token}

theorem Tiles.exists_cut_append (h : Tiles source start tokens stop) {front cs : List Char}
    (hsource : source.toList = front ++ cs) (hstart : byteLength front = start)
    (rest : List Token) :
    ∃ ls cs', cs = joined ls ++ cs' ∧ start + byteLength (joined ls) = stop ∧
      ls.map (·.kind) = tokens.map (·.kind) ∧
      startsFrom start ls = tokens.map (·.span.start) ++ [stop] ∧
      cut (byteLength source.toList) start cs (tokens ++ rest) =
        (cut (byteLength source.toList) stop cs' rest).map (ls ++ ·) := by
  induction tokens generalizing start front cs with
  | nil =>
      obtain rfl := tiles_nil_iff.mp h
      refine ⟨[], cs, rfl, rfl, rfl, rfl, ?_⟩
      rw [List.nil_append]
      cases cut (byteLength source.toList) start cs rest <;> simp [Except.map]
  | cons token tokens ih =>
      obtain ⟨⟨rfl, hlt, hboundary⟩, hrest⟩ := tiles_cons_iff.mp h
      obtain ⟨text, back, rfl, htext⟩ := hboundary.exists_split hsource (by omega)
      obtain ⟨ls, cs', hback, hlength, hkinds, hstarts, hcut⟩ :=
        ih hrest (hsource.trans (List.append_assoc front text back).symm)
          (by rw [byteLength_append]; omega)
      have hstop : byteLength front + byteLength text = token.span.stop := by omega
      have hfits : token.span.stop ≤ byteLength source.toList := hboundary.le_byteLength
      have hsplit : splitBytes? (token.span.stop - token.span.start) (text ++ back) =
          some (text, back) := splitBytes?_eq_some_iff.mpr ⟨rfl, by omega⟩
      refine ⟨⟨token.kind, text⟩ :: ls, cs', by simp [hback], ?_, by simp [hkinds], ?_, ?_⟩
      · rw [joined_cons, byteLength_append, ← hlength, ← hstop, hstart]
        exact (Nat.add_assoc _ _ _).symm
      · rw [startsFrom, ← hstart, hstop, hstarts]
        simp [hstart]
      · rw [List.cons_append, cut, if_neg (by omega), if_neg (by omega), hsplit]
        simp only [hcut]
        cases cut (byteLength source.toList) stop cs' rest <;> simp [Except.map]

theorem Tiles.exists_lexemes (h : Tiles source 0 tokens (byteLength source.toList)) :
    ∃ ls, ls.map (·.kind) = tokens.map (·.kind) ∧
      startsFrom 0 ls = tokens.map (·.span.start) ++ [byteLength source.toList] ∧
      ofTokens? source tokens = ofLexemes? source ls := by
  obtain ⟨ls, cs, _, _, hkinds, hstarts, hcut⟩ :=
    h.exists_cut_append (List.nil_append source.toList).symm byteLength_nil []
  rw [List.append_nil, cut, if_pos rfl] at hcut
  refine ⟨ls, hkinds, hstarts, ?_⟩
  simp [ofTokens?, hcut, Except.map]

theorem exists_ofTokens?_of_tiles (h : Tiles source 0 tokens (byteLength source.toList))
    (hword : BracketWord (tokens.map (·.kind))) : ∃ t, ofTokens? source tokens = .ok t := by
  obtain ⟨ls, hkinds, _, htokens⟩ := h.exists_lexemes
  obtain ⟨pairs, hpairs⟩ := exists_bracketPairs_of_bracketWord hword
  rw [htokens, ofLexemes?, hkinds, hpairs]
  exact ⟨_, rfl⟩

theorem ofTokens?_eq_error_of_defect {e : TargetError} (h : Defect source tokens e) :
    ofTokens? source tokens = .error e := by
  -- All but a bracket defect show where the cut stops.
  have hcut : ∀ {before rest : List Token} {stop : Nat}, Tiles source 0 before stop →
      tokens = before ++ rest →
      (∀ front cs, source.toList = front ++ cs → byteLength front = stop →
        cut (byteLength source.toList) stop cs rest = .error e) →
      ofTokens? source tokens = .error e := by
    intro before rest stop hbefore htokens hstops
    obtain ⟨ls, cs, hsource, hlength, _, _, hcut⟩ :=
      hbefore.exists_cut_append (List.nil_append source.toList).symm byteLength_nil rest
    rw [hstops (joined ls) cs hsource (by omega)] at hcut
    simp [ofTokens?, htokens, hcut, Except.map]
  cases h with
  | notTiling htokens hbefore hstart =>
      refine hcut hbefore htokens fun front cs _ _ => ?_
      rw [cut, if_pos hstart]
  | outOfBounds htokens hbefore hspan =>
      refine hcut hbefore htokens fun front cs _ _ => ?_
      rw [cut, if_neg (by simp), if_pos hspan]
  | @splitsCharacter before after token htokens hbefore hnonempty hlength hsplit =>
      refine hcut hbefore htokens fun front cs hsource hfront => ?_
      rw [cut, if_neg (by simp), if_neg (by omega)]
      cases hcs : splitBytes? (token.span.stop - token.span.start) cs with
      | none => rfl
      | some parts =>
          obtain ⟨hcs, htext⟩ := splitBytes?_eq_some_iff.mp hcs
          refine absurd ⟨front ++ parts.1, parts.2, by rw [hsource, hcs, List.append_assoc], ?_⟩
            hsplit
          rw [byteLength_append]
          omega
  | notCovering htiles hshort =>
      refine hcut htiles (List.append_nil tokens).symm fun front cs _ _ => ?_
      rw [cut, if_neg (by omega)]
  | @bracket fault token htiles hdefect htoken =>
      obtain ⟨ls, hkinds, hstarts, htokens⟩ := htiles.exists_lexemes
      have hstart : (startsFrom 0 ls)[fault.index]? = some token.span.start := by
        have hindex := (List.getElem?_eq_some_iff.mp htoken).1
        rw [hstarts, List.getElem?_append_left (by simpa using hindex), List.getElem?_map, htoken]
        rfl
      rw [htokens, ofLexemes?, hkinds, bracketPairs_of_defect hdefect]
      simp [bracketError_eq, hstart]

theorem tiles_of_ofTokens? {t : Target} (h : ofTokens? source tokens = .ok t) :
    Tiles source 0 tokens (byteLength source.toList) ∧ BracketWord (tokens.map (·.kind)) := by
  refine (tiles_or_defect source tokens).resolve_right ?_
  rintro ⟨e, he⟩
  simp [ofTokens?_eq_error_of_defect he] at h

end

/-- Tokens are accepted exactly if they tile the source and their brackets nest, and
otherwise the error is about what is wrong with them. -/
theorem tokens_accepted_iff (source : String) (tokens : List Token) :
    ((∃ t, ofTokens? source tokens = .ok t) ↔
        Tiles source 0 tokens (byteLength source.toList) ∧ BracketWord (tokens.map (·.kind))) ∧
      ∀ e, ofTokens? source tokens = .error e ↔ Defect source tokens e := by
  refine ⟨⟨fun ⟨_, ht⟩ => tiles_of_ofTokens? ht,
    fun ⟨htiles, hword⟩ => exists_ofTokens?_of_tiles htiles hword⟩,
    fun e => ⟨fun he => ?_, ofTokens?_eq_error_of_defect⟩⟩
  rcases tiles_or_defect source tokens with ⟨htiles, hword⟩ | ⟨e', he'⟩
  · obtain ⟨t, ht⟩ := exists_ofTokens?_of_tiles htiles hword
    simp [he] at ht
  · obtain rfl := Except.error.inj ((ofTokens?_eq_error_of_defect he').symm.trans he)
    exact he'

/-- The first token stops inside the character, and no bracket is closed either. -/
example : (match ofTokens? "é(" [⟨.word, ⟨0, 1⟩⟩, ⟨.opening .paren, ⟨1, 3⟩⟩] with
    | .error e => e == ⟨1, .splitsCharacter⟩
    | .ok _ => false) = true := by decide +kernel

end Target

end Stencil
