import Mathlib.Data.List.Chain
import Stencil.Proofs.Pattern.Bytes
import Stencil.Proofs.Pattern.Source
import Stencil.Proofs.Success

/-!
# Resuming the lexer

A lexer that has failed can be asked again.  It stands behind what it has read of the
hole, which is its `:[` at least, so that it cannot fail forever.  Where it succeeds, its
tokens are all that was ahead, with nothing left out and no run of text or blanks cut in
two.
-/

namespace Stencil

/-! ## Malformed holes -/

theorem lexHole_malformed {q : Quantifier} {cs read rest : List Char} {error : Nat → HoleError}
    (h : lexHole q cs = .malformed error read rest) :
    ∃ name, read = q.opening.toList ++ name ∧ cs = name ++ rest := by
  have hsplit : cs = cs.takeWhile isNameChar ++ cs.dropWhile isNameChar :=
    List.takeWhile_append_dropWhile.symm
  rw [lexHole] at h
  split at h
  · simp only [Lexed.malformed.injEq] at h
    obtain ⟨_, rfl, rfl⟩ := h
    exact ⟨_, rfl, hsplit⟩
  · split at h
    · rename_i hempty
      simp only [Lexed.malformed.injEq] at h
      obtain ⟨_, rfl, rfl⟩ := h
      rw [List.isEmpty_iff.mp hempty] at hsplit
      exact ⟨[], by simp, hsplit⟩
    · split at h
      · simp at h
      · simp only [Lexed.malformed.injEq] at h
        obtain ⟨_, rfl, rfl⟩ := h
        exact ⟨_, rfl, hsplit⟩

theorem lexeme_malformed {c : Char} {cs read rest : List Char} {error : Nat → HoleError}
    (h : lexeme c cs = .malformed error read rest) :
    c :: cs = read ++ rest ∧ 2 ≤ byteLength read ∧ ∀ n, (error n).offset = n := by
  rcases lexeme_cases c cs with ⟨_, _, _, htoken, _⟩ |
    ⟨after, error', read', rest', rfl, rfl, _, hmalformed, hfault⟩
  · simp [h] at htoken
  · obtain ⟨rfl, rfl, rfl⟩ := Lexed.malformed.inj (h.symm.trans hmalformed)
    obtain ⟨q, cs, hlexeme, hwhole, _⟩ := lexeme_hole after
    obtain ⟨name, rfl, rfl⟩ := lexHole_malformed (hlexeme.symm.trans h)
    refine ⟨by rw [hwhole, List.append_assoc], ?_, fun n => (hfault n).offset_eq⟩
    have hopening : 2 ≤ byteLength q.opening.toList := by cases q <;> decide
    rw [byteLength_append]
    omega

/-! ## Calls -/

namespace Lexer

def after (l : Lexer) : Nat → Lexer
  | 0 => l
  | n + 1 => (l.after n).tokenize.2

theorem after_succ (l : Lexer) (n : Nat) : l.after (n + 1) = l.tokenize.2.after n := by
  induction n with
  | zero => rfl
  | succ n ih => rw [after, ih, after]

/-- How a call ends that leaves the lexer `l'`. -/
inductive Ends (l : Lexer) : Except HoleError (List Token) → Lexer → Prop where
  | done {tokens : List Token} {l' : Lexer} (hrest : l'.rest = []) : Ends l (.ok tokens) l'
  | blamed {e : HoleError} {l' : Lexer} (hoffset : l.offset ≤ e.offset)
      (hbehind : e.offset + 2 ≤ l'.offset) : Ends l (.error e) l'

theorem tokenize_reads (l : Lexer) :
    (∃ read, l.rest = read ++ l.tokenize.2.rest ∧
      l.tokenize.2.offset = l.offset + byteLength read) ∧ Ends l l.tokenize.1 l.tokenize.2 := by
  obtain ⟨cs, n⟩ := l
  induction hlength : cs.length using Nat.strongRecOn generalizing n cs with
  | ind length ih =>
      cases cs with
      | nil =>
          rw [tokenize]
          exact ⟨⟨[], rfl, rfl⟩, .done rfl⟩
      | cons c cs =>
          rcases lexeme_cases c cs with ⟨kind, value, rest, htoken, hwhole, hvalue, _⟩ |
            ⟨_, error, read, rest, _, _, _, hmalformed, _⟩
          · have hshort : rest.length < length := by
              rw [← hlength, hwhole, List.length_append]
              have := List.length_pos_iff.mpr hvalue
              omega
            obtain ⟨⟨read, hrest, hoffset⟩, hends⟩ := ih _ hshort rest (n + byteLength value) rfl
            rw [tokenize_eq_of_token htoken]
            refine ⟨⟨value ++ read, ?_, ?_⟩, ?_⟩
            · rw [hwhole, List.append_assoc, ← hrest]
            · rw [hoffset, byteLength_append, Nat.add_assoc]
            · generalize (Lexer.mk rest (n + byteLength value)).tokenize = call at hends
              obtain ⟨result, l'⟩ := call
              cases hends with
              | done hrest => exact .done hrest
              | blamed hstart hbehind => exact .blamed (Nat.le_of_add_right_le hstart) hbehind
          · obtain ⟨hwhole, hlong, hstart⟩ := lexeme_malformed hmalformed
            rw [tokenize_eq_of_malformed hmalformed]
            refine ⟨⟨read, hwhole, rfl⟩, .blamed (Nat.le_of_eq (hstart n).symm) ?_⟩
            rw [hstart]
            exact Nat.add_le_add_left hlong n

theorem tokenize_of_nil {l : Lexer} (h : l.rest = []) :
    l.tokenize = (.ok [⟨.finish, "", l.offset⟩], l) := by
  obtain ⟨cs, n⟩ := l
  obtain rfl : cs = [] := h
  rw [tokenize]

theorem after_of_nil {l : Lexer} (h : l.rest = []) (n : Nat) : l.after n = l := by
  induction n with
  | zero => rfl
  | succ n ih => rw [after, ih, tokenize_of_nil h]

/-- Each call that fails takes two bytes away at least, and behind one that succeeds
nothing is left to fail. -/
theorem exists_success (l : Lexer) :
    ∃ k, 2 * k ≤ byteLength l.rest ∧ (∀ n < k, ∃ e, (l.after n).tokenize.1 = .error e) ∧
      ∀ n, k ≤ n → ∃ tokens, (l.after n).tokenize.1 = .ok tokens := by
  induction hlength : byteLength l.rest using Nat.strongRecOn generalizing l with
  | ind length ih =>
      obtain ⟨⟨read, hrest, hoffset⟩, hends⟩ := l.tokenize_reads
      obtain ⟨result, l', hcall⟩ : ∃ result l', l.tokenize = (result, l') := ⟨_, _, rfl⟩
      rw [hcall] at hrest hoffset hends
      dsimp only at hrest hoffset hends
      cases hends with
      | @done tokens _ hnil =>
          refine ⟨0, Nat.zero_le _, fun n hn => absurd hn (Nat.not_lt_zero n), fun n _ => ?_⟩
          cases n with
          | zero => exact ⟨tokens, by rw [after, hcall]⟩
          | succ n =>
              rw [after_succ, hcall, after_of_nil hnil, tokenize_of_nil hnil]
              exact ⟨_, rfl⟩
      | @blamed e _ hstart hbehind =>
          have hsplit := congrArg byteLength hrest
          rw [byteLength_append] at hsplit
          obtain ⟨k, hk, hfail, hsucceed⟩ := ih _ (by omega) l' rfl
          refine ⟨k + 1, by omega, fun n hn => ?_, fun n hn => ?_⟩
          · cases n with
            | zero => exact ⟨e, by rw [after, hcall]⟩
            | succ n =>
                rw [after_succ, hcall]
                exact hfail n (Nat.lt_of_succ_lt_succ hn)
          · obtain ⟨n, rfl⟩ : ∃ j, n = j + 1 := ⟨n - 1, by omega⟩
            rw [after_succ, hcall]
            exact hsucceed n (Nat.le_of_succ_le_succ hn)

theorem exists_read (s : String) (n : Nat) :
    ∃ read, s.toList = read ++ ((ofString s).after n).rest ∧
      byteLength read = ((ofString s).after n).offset := by
  induction n with
  | zero => exact ⟨[], rfl, rfl⟩
  | succ n ih =>
      obtain ⟨front, hfront, hoffset⟩ := ih
      obtain ⟨⟨read, hrest, hnext⟩, _⟩ := ((ofString s).after n).tokenize_reads
      refine ⟨front ++ read, ?_, ?_⟩
      · rw [hfront, hrest, List.append_assoc, after]
      · rw [byteLength_append, hoffset, after, hnext]

end Lexer

/-! ## Tokens -/

theorem stopsText_drop_textRun (cs : List Char) :
    stopsText (cs.drop (textRun cs).length) = true := by
  induction cs with
  | nil => rfl
  | cons c cs ih =>
      rw [textRun_cons]
      cases hstops : stopsText (c :: cs) with
      | true => simpa using hstops
      | false => simpa using ih

section

variable {c : Char} {cs value rest : List Char}

theorem stopsText_of_text (h : lexeme c cs = .token .text value rest) :
    stopsText (c :: cs) = false ∧ stopsText rest = true := by
  obtain ⟨hwhole, hspelled⟩ := Spelled.of_lexeme h
  cases hspelled with
  | text hplain =>
      have hstart : stopsText (c :: cs) = false := by
        rw [hwhole]
        exact hplain [] value rfl (ne_nil_of_lexeme h)
      obtain ⟨_, _, rfl⟩ := Lexed.token.inj ((lexeme_plain hstart).symm.trans h)
      exact ⟨hstart, stopsText_drop_textRun cs⟩

theorem isBlank_of_blank (h : lexeme c cs = .token .blank value rest) :
    isBlank c = true ∧ ∀ d, rest.head? = some d → isBlank d = false := by
  obtain ⟨hwhole, hspelled⟩ := Spelled.of_lexeme h
  cases hspelled with
  | blank hblank =>
      obtain ⟨d, value, rfl⟩ := List.exists_cons_of_ne_nil (ne_nil_of_lexeme h)
      obtain ⟨rfl, _⟩ := List.cons.inj hwhole
      have hstart : isBlank c = true := List.all_eq_true.mp hblank c (by simp)
      obtain ⟨_, _, rfl⟩ := Lexed.token.inj ((lexeme_blank hstart).symm.trans h)
      refine ⟨hstart, fun d hd => ?_⟩
      simpa [hd] using List.head?_dropWhile_not isBlank cs

end

def Token.Apart (t t' : Token) : Prop := t.kind = t'.kind → t.kind ≠ .text ∧ t.kind ≠ .blank

structure LexesAsText (cs : List Char) : Prop where
  ne_nil : cs ≠ []
  plain : Pattern.PlainText cs
  no_blank : ∀ c ∈ cs, isBlank c = false

theorem Spelled.lexesAsText {value rest : List Char} (h : Spelled .text value rest)
    (hne : value ≠ []) : LexesAsText value := by
  cases h with
  | text hplain =>
      have hchar : ∀ c ∈ value, c ≠ '\x7b' ∧ c ≠ '\x7d' ∧ isBlank c = false := by
        intro c hc
        obtain ⟨front, back, rfl⟩ := List.append_of_mem hc
        have hstops := hplain front (c :: back) rfl (by simp)
        simp only [List.cons_append, stopsText, Bool.or_eq_false_iff, beq_eq_false_iff_ne] at hstops
        exact ⟨hstops.1.1.1, hstops.1.1.2, hstops.1.2⟩
      refine ⟨hne, ⟨fun hmem => (hchar _ hmem).1 rfl, fun hmem => (hchar _ hmem).2.1 rfl, ?_⟩,
        fun c hc => (hchar c hc).2.2⟩
      rintro ⟨front, back, rfl⟩
      have hstops := hplain front (':' :: '[' :: back) (by simp) (by simp)
      simp [stopsText] at hstops

namespace Lexes

variable {n : Nat} {cs : List Char} {ts : List Token}

theorem values_eq (h : Lexes n cs ts) : (ts.flatMap fun t => t.value.toList) = cs := by
  induction h with
  | nil => rfl
  | cons hlexeme _ ih =>
      rw [List.flatMap_cons, ih, String.toList_ofList, (Spelled.of_lexeme hlexeme).1]

theorem offset_eq (h : Lexes n cs ts) {front back : List Token} {t : Token}
    (hts : ts = front ++ t :: back) :
    t.offset = n + byteLength (front.flatMap fun t => t.value.toList) := by
  induction h generalizing front with
  | nil => simp at hts
  | cons hlexeme _ ih =>
      cases front with
      | nil =>
          obtain ⟨rfl, _⟩ := List.cons.inj hts
          rfl
      | cons u front =>
          rw [List.cons_append, List.cons.injEq] at hts
          obtain ⟨rfl, hts⟩ := hts
          rw [ih hts, List.flatMap_cons, byteLength_append, String.toList_ofList, Nat.add_assoc]

theorem lexesAsText (h : Lexes n cs ts) :
    ∀ t ∈ ts, t.kind = .text → LexesAsText t.value.toList := by
  induction h with
  | nil => simp
  | @cons n c cs value rest kind ts hlexeme _ ih =>
      rw [List.forall_mem_cons]
      refine ⟨?_, ih⟩
      rintro rfl
      rw [String.toList_ofList]
      exact (Spelled.of_lexeme hlexeme).2.lexesAsText (ne_nil_of_lexeme hlexeme)

theorem isChain_apart (h : Lexes n cs ts) : ts.IsChain Token.Apart := by
  induction h with
  | nil => exact .nil
  | @cons n c cs value rest kind ts hlexeme hrest ih =>
      cases hrest with
      | nil => exact .singleton _
      | @cons _ d ds value' rest' kind' ts hlexeme' _ =>
          refine List.isChain_cons_cons.mpr ⟨?_, ih⟩
          rintro rfl
          constructor
          · rintro rfl
            have hends := (stopsText_of_text hlexeme).2
            rw [(stopsText_of_text hlexeme').1] at hends
            cases hends
          · rintro rfl
            have hends := (isBlank_of_blank hlexeme).2 d rfl
            rw [(isBlank_of_blank hlexeme').1] at hends
            cases hends

end Lexes

/-! ## The text ahead -/

structure Covers (s : String) (l : Lexer) (tokens : List Token) : Prop where
  values : (tokens.flatMap fun t => t.value.toList) = l.rest
  offsets : ∀ front t back, tokens = front ++ t :: back →
    t.offset = l.offset + byteLength (front.flatMap fun t => t.value.toList)
  finish : ∃ ts, tokens = ts ++ [⟨.finish, "", byteLength s.toList⟩] ∧
    ∀ t ∈ ts, t.kind ≠ .finish
  texts : ∀ t ∈ tokens, t.kind = .text → LexesAsText t.value.toList
  runs : tokens.IsChain Token.Apart

theorem Lexes.covers {s : String} {l : Lexer} {ts : List Token} (h : Lexes l.offset l.rest ts)
    (hend : byteLength s.toList = l.offset + byteLength l.rest) :
    Covers s l (ts ++ [⟨.finish, "", byteLength s.toList⟩]) where
  values := by simp [h.values_eq]
  offsets front t back hts := by
    rcases List.append_eq_append_iff.mp hts with ⟨between, rfl, hfinish⟩ |
      ⟨between, hfront, hback⟩
    · obtain ⟨rfl, hfinish, _⟩ : between = [] ∧ t = ⟨.finish, "", byteLength s.toList⟩ ∧
          back = [] := by
        cases between <;> simp_all
      rw [hfinish, List.append_nil, h.values_eq, ← hend]
    · cases between with
      | nil =>
          obtain ⟨rfl, _⟩ := List.cons.inj hback
          rw [List.append_nil] at hfront
          rw [← hfront, h.values_eq, ← hend]
      | cons u between =>
          obtain ⟨rfl, _⟩ := List.cons.inj hback
          exact h.offset_eq hfront
  finish := ⟨ts, rfl, h.kind_ne_finish⟩
  texts t ht hkind := by
    rcases List.mem_append.mp ht with ht | ht
    · exact h.lexesAsText t ht hkind
    · rw [List.mem_singleton.mp ht] at hkind
      cases hkind
  runs := by
    refine List.isChain_append.mpr ⟨h.isChain_apart, .singleton _, fun t ht t' ht' hkind => ?_⟩
    obtain rfl : _ = t' := by simpa using ht'
    exact absurd hkind (h.kind_ne_finish t (List.mem_of_getLast? ht))

/-- A call gives all tokens of the text that is ahead of the lexer, or it blames a hole and
stands two bytes or more behind the start of that, between two characters.  It fails less
often than the pattern has pairs of bytes, and succeeds from then on.  The lexer of bytes
does the same and never cuts a character in two. -/
theorem Lexer.calls_cover (s : String) :
    (∀ n, ∃ read, s.toList = read ++ ((ofString s).after n).rest ∧
      byteLength read = ((ofString s).after n).offset ∧
      (∀ tokens, ((ofString s).after n).tokenize.1 = .ok tokens →
        Covers s ((ofString s).after n) tokens) ∧
      (∀ e, ((ofString s).after n).tokenize.1 = .error e →
        ((ofString s).after n).offset ≤ e.offset ∧
          e.offset + 2 ≤ ((ofString s).after (n + 1)).offset) ∧
      ByteLexer.after? s.toList n = some ((ofString s).after n).offset ∧
      ByteLexer.tokenizeFrom? s.toList ((ofString s).after n).offset =
        some (((ofString s).after n).tokenize.1, ((ofString s).after (n + 1)).offset)) ∧
    ∃ k, 2 * k ≤ byteLength s.toList ∧
      (∀ n < k, ∃ e, ((ofString s).after n).tokenize.1 = .error e) ∧
      ∀ n, k ≤ n → ∃ tokens, ((ofString s).after n).tokenize.1 = .ok tokens := by
  have hbytes : ∀ n, ByteLexer.tokenizeFrom? s.toList ((ofString s).after n).offset =
      some (((ofString s).after n).tokenize.1, ((ofString s).after (n + 1)).offset) := by
    intro n
    obtain ⟨read, hread, hoffset⟩ := exists_read s n
    exact ByteLexer.tokenizeFrom?_eq ⟨read, hread, hoffset⟩
  refine ⟨fun n => ?_, exists_success (ofString s)⟩
  obtain ⟨read, hread, hoffset⟩ := exists_read s n
  refine ⟨read, hread, hoffset, fun tokens htokens => ?_, fun e he => ?_, ?_, hbytes n⟩
  · have hend : byteLength s.toList =
        ((ofString s).after n).offset + byteLength ((ofString s).after n).rest := by
      rw [hread, byteLength_append, hoffset]
    rcases tokenize_cases ((ofString s).after n).offset ((ofString s).after n).rest with
      ⟨_, ts, hlexes⟩ | ⟨_, _, _, _, _, herror⟩
    · obtain rfl := Except.ok.inj ((tokenize_of_lexes hlexes).symm.trans htokens)
      rw [← hend]
      exact hlexes.covers hend
    · cases htokens.symm.trans herror
  · have hends := ((ofString s).after n).tokenize_reads.2
    rw [he] at hends
    rw [after]
    generalize ((ofString s).after n).tokenize.2 = l' at hends
    cases hends with
    | blamed hstart hbehind => exact ⟨hstart, hbehind⟩
  · clear hread hoffset
    induction n with
    | zero => rfl
    | succ n ih => simp [ByteLexer.after?, ih, hbytes n]

/-- A digit as a name, a name that is not closed, and no name: three calls fail. -/
theorem Lexer.calls_cover_bad_holes :
    ∃ s, s = "é:[1] \x7b:[a b:[[]] :[[c]]" ∧
      (ofString s).tokenize.1 = .error (.unterminated 2) ∧
      ((ofString s).after 1).tokenize.1 = .error (.unterminated 8) ∧
      ((ofString s).after 2).tokenize.1 = .error (.emptyName 13) ∧
      ∃ tokens, ((ofString s).after 3).tokenize.1 = .ok tokens ∧
        tokens.map Token.value = ["]]", " ", ":[[c]]", ""] ∧
        Covers s ((ofString s).after 3) tokens := by
  have hvalues : (((ofString "é:[1] \x7b:[a b:[[]] :[[c]]").after 3).tokenize.1.toOption.map
      fun tokens => tokens.map Token.value) = some ["]]", " ", ":[[c]]", ""] := by
    decide +kernel
  obtain ⟨tokens, htokens, hvalues⟩ := Option.map_eq_some_iff.mp hvalues
  have hok := eq_ok_of_toOption htokens
  obtain ⟨_, _, _, hcovers, _⟩ := (calls_cover "é:[1] \x7b:[a b:[[]] :[[c]]").1 3
  exact ⟨_, rfl, by decide +kernel, by decide +kernel, by decide +kernel, tokens, hok, hvalues,
    hcovers tokens hok⟩

end Stencil
