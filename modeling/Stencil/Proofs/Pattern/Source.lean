import Stencil.Proofs.Pattern.Lexing

/-!
# Sources of patterns

A compiled pattern, written out, is the text it was compiled from.  A pattern
whose items can be told apart in its text is compiled from this text again, each
item at the place at which it is written.
-/

namespace Stencil

namespace Pattern

structure PlainText (cs : List Char) : Prop where
  no_opening : '\x7b' ∉ cs
  no_closing : '\x7d' ∉ cs
  no_hole : ¬ [':', '['] <:+: cs

def BeginsOther (p : Pattern) : Prop := ∀ content offset rest, p ≠ text content offset rest

/-- A hole is written without its kind, so only the usual one can be read back, and
texts that follow each other are read as one. -/
def Writable : Pattern → Prop
  | nil => True
  | hole h _ rest => isName h.name.toList = true ∧ h.kind = .any ∧ rest.Writable
  | text content _ rest =>
    content.toList ≠ [] ∧ PlainText content.toList ∧ rest.BeginsOther ∧ rest.Writable
  | block _ body rest => body.Writable ∧ rest.Writable

/-- The pattern with each item at the offset at which it stands in the source, which
starts at offset `n`. -/
def placed (n : Nat) : Pattern → Pattern
  | nil => nil
  | hole h _ rest => hole h n (rest.placed (n + byteLength h.source.toList))
  | text content _ rest => text content n (rest.placed (n + byteLength content.toList))
  | block _ body rest =>
    block n (body.placed (n + 1)) (rest.placed (n + 1 + byteLength body.source.toList + 1))

/-! ## From the text to the pattern -/

theorem exists_lexes_of_compile {s : String} {p : Pattern} (h : compile s = .ok p) :
    ∃ ts, Lexes 0 s.toList ts ∧ braceDefect? [] ts = none ∧ p = ofTokens ts := by
  rcases Lexer.tokenize_cases 0 s.toList with ⟨_, ts, hlexes⟩ | ⟨_, _, _, _, _, herror⟩
  · rw [compile_of_lexes hlexes] at h
    split at h
    · simp at h
    · rename_i hnone
      exact ⟨ts, hlexes, hnone, (Except.ok.inj h).symm⟩
  · simp [compile, lex, Lexer.ofString, herror] at h

theorem source_consText (value : String) (offset : Nat) (p : Pattern) :
    (consText value offset p).source = value ++ p.source := by
  cases p with
  | text content _ rest => simp [consText, source, String.append_assoc]
  | nil | hole _ _ _ | block _ _ _ => rfl

theorem source_assemble {n : Nat} {cs : List Char} {ts : List Token} (h : Lexes n cs ts)
    {opened : List Nat} (hbraces : braceDefect? opened ts = none) :
    (assemble ts).2.length = opened.length ∧
      cs = (assemble ts).1.source.toList ++
        (assemble ts).2.flatMap fun q => '\x7d' :: q.source.toList := by
  induction h generalizing opened with
  | nil =>
      cases opened with
      | nil => simp [assemble, source]
      | cons top outer => simp [braceDefect?] at hbraces
  | @cons n c cs value rest kind ts hlexeme _ ih =>
      obtain ⟨hwhole, hspelled⟩ := Spelled.of_lexeme hlexeme
      rw [hwhole]
      simp only [assemble]
      cases hspelled with
      | openBrace =>
          obtain ⟨hlength, hrest⟩ := ih (hbraces : braceDefect? (n :: opened) ts = none)
          obtain ⟨q, outer, houter⟩ := List.exists_cons_of_length_pos
            (show 0 < (assemble ts).2.length by simp [hlength])
          rw [houter] at hlength hrest
          rw [hrest, houter]
          refine ⟨by simpa using hlength, by simp [source]⟩
      | closeBrace =>
          cases opened with
          | nil => simp [braceDefect?] at hbraces
          | cons top outer =>
              obtain ⟨hlength, hrest⟩ := ih (hbraces : braceDefect? outer ts = none)
              refine ⟨by simp [hlength], ?_⟩
              rw [hrest]
              simp [source]
      | blank | text | hole =>
          obtain ⟨hlength, hrest⟩ := ih (hbraces : braceDefect? opened ts = none)
          refine ⟨hlength, ?_⟩
          rw [hrest]
          simp [source, source_consText]

theorem source_of_compile {s : String} {p : Pattern} (h : compile s = .ok p) : p.source = s := by
  obtain ⟨ts, hlexes, hbraces, rfl⟩ := exists_lexes_of_compile h
  obtain ⟨hlength, hcs⟩ := source_assemble hlexes hbraces
  rw [List.eq_nil_of_length_eq_zero hlength, List.flatMap_nil, List.append_nil] at hcs
  exact String.toList_inj.mp hcs.symm

/-! ## From the pattern to the text -/

def EndsText (cs : List Char) : Prop := stopsText cs = true ∧ cs.takeWhile isBlank = []

theorem EndsText.takeWhile_append {follow : List Char} (h : EndsText follow) (cs : List Char) :
    (cs ++ follow).takeWhile isBlank = cs.takeWhile isBlank := by
  induction cs with
  | nil => exact h.2
  | cons c cs ih => rw [List.cons_append, List.takeWhile_cons, List.takeWhile_cons, ih]

theorem EndsText.dropWhile_append {follow : List Char} (h : EndsText follow) (cs : List Char) :
    (cs ++ follow).dropWhile isBlank = cs.dropWhile isBlank ++ follow := by
  have hsplit := List.takeWhile_append_dropWhile (p := isBlank) (l := cs ++ follow)
  rw [h.takeWhile_append] at hsplit
  refine List.append_cancel_left (hsplit.trans ?_)
  rw [← List.append_assoc, List.takeWhile_append_dropWhile]

theorem textRun_append_isPrefix {follow : List Char} (hfollow : stopsText follow = true)
    (cs : List Char) : textRun (cs ++ follow) <+: cs := by
  induction cs with
  | nil => simp [textRun_of_stopsText hfollow]
  | cons c cs ih =>
      rw [List.cons_append, textRun_cons]
      split
      · exact List.nil_prefix
      · exact List.cons_prefix_cons.mpr ⟨rfl, ih⟩

theorem PlainText.stopsText {c : Char} {cs follow : List Char} (h : PlainText (c :: cs))
    (hblank : isBlank c = false) (hfollow : EndsText follow) :
    stopsText (c :: (cs ++ follow)) = false := by
  have hopening : c ≠ '\x7b' := fun hc => h.no_opening (by simp [hc])
  have hclosing : c ≠ '\x7d' := fun hc => h.no_closing (by simp [hc])
  have hbracket : ¬ (c = ':' ∧ (cs ++ follow).head? = some '[') := by
    rintro ⟨rfl, hhead⟩
    cases cs with
    | nil =>
        obtain ⟨rest, rfl⟩ := List.head?_eq_some_iff.mp hhead
        simp [EndsText, Stencil.stopsText, isBlank] at hfollow
    | cons d cs =>
        obtain rfl : d = '[' := by simpa using hhead
        exact h.no_hole ⟨[], cs, rfl⟩
  simp only [Stencil.stopsText, hblank, Bool.or_eq_false_iff, Bool.and_eq_false_imp, beq_iff_eq,
    beq_eq_false_iff_ne]
  exact ⟨⟨⟨hopening, hclosing⟩, trivial⟩, fun hc hhead => hbracket ⟨hc, hhead⟩⟩

theorem PlainText.exists_lexeme {c : Char} {cs follow : List Char} (h : PlainText (c :: cs))
    (hfollow : EndsText follow) :
    ∃ kind value content, (kind = .text ∨ kind = .blank) ∧ c :: cs = value ++ content ∧
      value ≠ [] ∧ lexeme c (cs ++ follow) = .token kind value (content ++ follow) := by
  cases hblank : isBlank c with
  | true =>
      refine ⟨.blank, c :: cs.takeWhile isBlank, cs.dropWhile isBlank, .inr rfl, ?_, by simp, ?_⟩
      · rw [List.cons_append, List.takeWhile_append_dropWhile]
      · rw [lexeme_blank hblank, hfollow.takeWhile_append, hfollow.dropWhile_append]
  | false =>
      obtain ⟨content, hcontent⟩ := textRun_append_isPrefix hfollow.1 cs
      refine ⟨.text, c :: textRun (cs ++ follow), content, .inl rfl, ?_, by simp, ?_⟩
      · rw [List.cons_append, hcontent]
      · have hdrop : (cs ++ follow).drop (textRun (cs ++ follow)).length = content ++ follow := by
          generalize textRun (cs ++ follow) = run at hcontent ⊢
          rw [← hcontent, List.append_assoc, List.drop_left]
        rw [lexeme_plain (h.stopsText hblank hfollow), hdrop]

theorem PlainText.of_append_right {cs cs' : List Char} (h : PlainText (cs ++ cs')) :
    PlainText cs' where
  no_opening hmem := h.no_opening (List.mem_append_right _ hmem)
  no_closing hmem := h.no_closing (List.mem_append_right _ hmem)
  no_hole hpart := h.no_hole (hpart.trans (List.suffix_append _ _).isInfix)

theorem BeginsOther.consText {p : Pattern} (h : p.BeginsOther) (value : String) (offset : Nat) :
    consText value offset p = text value offset p := by
  cases p with
  | text content offset rest => exact absurd rfl (h content offset rest)
  | nil | hole _ _ _ | block _ _ _ => rfl

def ReadsAs (n : Nat) (cs : List Char) (more : List Token) (p : Pattern) : Prop :=
  ∃ ts, Lexes n cs ts ∧ (∀ opened, braceDefect? opened ts = braceDefect? opened more) ∧
    assemble ts = (p, (assemble more).2)

theorem PlainText.readsAs {content follow : List Char} (h : PlainText content)
    (hne : content ≠ []) (hfollow : EndsText follow) {n : Nat} {more : List Token}
    (hmore : Lexes (n + byteLength content) follow more)
    (hrest : (assemble more).1.BeginsOther) :
    ReadsAs n (content ++ follow) more (text (String.ofList content) n (assemble more).1) := by
  -- One token is read off the front; its text is joined to that of the tokens behind it.
  induction hlength : content.length using Nat.strongRecOn generalizing n content with
  | ind length ih =>
      obtain ⟨c, cs, rfl⟩ := List.exists_cons_of_ne_nil hne
      obtain ⟨kind, value, content, hkind, hwhole, hvalue, hlexeme⟩ := h.exists_lexeme hfollow
      rw [hwhole] at h hmore hlength ⊢
      rw [byteLength_append, ← Nat.add_assoc] at hmore
      have hstep : ∀ {ts : List Token}, Lexes (n + byteLength value) (content ++ follow) ts →
          Lexes n (value ++ content ++ follow) (⟨kind, String.ofList value, n⟩ :: ts) := by
        intro ts hts
        rw [← hwhole]
        exact .cons hlexeme hts
      have hbraces : ∀ (opened : List Nat) (ts : List Token),
          braceDefect? opened (⟨kind, String.ofList value, n⟩ :: ts) = braceDefect? opened ts := by
        rcases hkind with rfl | rfl <;> intro opened ts <;> rfl
      have hassemble : ∀ ts : List Token, assemble (⟨kind, String.ofList value, n⟩ :: ts) =
          (consText (String.ofList value) n (assemble ts).1, (assemble ts).2) := by
        rcases hkind with rfl | rfl <;> intro ts <;> rfl
      cases content with
      | nil =>
          refine ⟨_, hstep hmore, fun opened => hbraces opened more, ?_⟩
          rw [hassemble, hrest.consText, List.append_nil]
      | cons d content =>
          have hshort : (d :: content).length < length := by
            have := List.length_pos_iff.mpr hvalue
            rw [← hlength, List.length_append]
            omega
          obtain ⟨ts, hts, hsame, hassembled⟩ :=
            ih _ hshort h.of_append_right (by simp) hmore rfl
          refine ⟨_, hstep hts, fun opened => (hbraces opened ts).trans (hsame opened), ?_⟩
          rw [hassemble, hassembled, Pattern.consText, ← String.ofList_append]

theorem BeginsOther.placed {p : Pattern} (h : p.BeginsOther) (n : Nat) :
    (p.placed n).BeginsOther := by
  cases p with
  | text content offset rest => exact absurd rfl (h content offset rest)
  | nil | hole _ _ _ | block _ _ _ => simp [Pattern.placed, BeginsOther]

theorem BeginsOther.endsText {p : Pattern} (h : p.BeginsOther) {follow : List Char}
    (hfollow : EndsText follow) : EndsText (p.source.toList ++ follow) := by
  cases p with
  | nil => simpa [source] using hfollow
  | text content offset rest => exact absurd rfl (h content offset rest)
  | hole hole offset rest =>
      rw [source, Hole.source]
      cases hole.quantifier <;> simp [EndsText, Quantifier.opening, stopsText, isBlank]
  | block offset body rest => simp [source, EndsText, stopsText, isBlank]

theorem Writable.readsAs {p : Pattern} (hp : p.Writable) {follow : List Char}
    (hfollow : EndsText follow) {n : Nat} {more : List Token}
    (hmore : Lexes (n + byteLength p.source.toList) follow more) (hnil : (assemble more).1 = nil) :
    ReadsAs n (p.source.toList ++ follow) more (p.placed n) := by
  induction p generalizing n follow more with
  | nil => exact ⟨more, by simpa [source] using hmore, fun _ => rfl, by rw [placed, ← hnil]⟩
  | hole h offset rest ih =>
      obtain ⟨hname, hkind, hrest⟩ := hp
      rw [source, String.toList_append, byteLength_append, ← Nat.add_assoc] at hmore
      obtain ⟨ts, hts, hsame, hassembled⟩ := ih hrest hfollow hmore hnil
      obtain ⟨c, cs, hwhole, hlexeme⟩ := h.exists_lexeme hname hkind (rest.source.toList ++ follow)
      refine ⟨⟨.hole h, String.ofList h.source.toList, n⟩ :: ts, ?_, hsame, ?_⟩
      · rw [source, String.toList_append, List.append_assoc, hwhole]
        exact .cons hlexeme hts
      · rw [assemble, hassembled]
        rfl
  | text content offset rest ih =>
      obtain ⟨hne, hplain, hnext, hrest⟩ := hp
      rw [source, String.toList_append, byteLength_append, ← Nat.add_assoc] at hmore
      obtain ⟨ts, hts, hsame, hassembled⟩ := ih hrest hfollow hmore hnil
      have hother : (assemble ts).1.BeginsOther := by
        rw [hassembled]
        exact hnext.placed _
      obtain ⟨ts', hts', hsame', hassembled'⟩ :=
        hplain.readsAs hne (hnext.endsText hfollow) hts hother
      refine ⟨ts', ?_, fun opened => (hsame' opened).trans (hsame opened), ?_⟩
      · rwa [source, String.toList_append, List.append_assoc]
      · rw [hassembled', hassembled, String.ofList_toList]
        rfl
  | block offset body rest ihBody ihRest =>
      have hsource : (block offset body rest).source.toList =
          '\x7b' :: (body.source.toList ++ '\x7d' :: rest.source.toList) := by
        simp [source]
      have hlength : n + byteLength (block offset body rest).source.toList =
          n + 1 + byteLength body.source.toList + 1 + byteLength rest.source.toList := by
        rw [hsource, byteLength_cons, byteLength_append, byteLength_cons]
        simp only [show ('\x7b' : Char).utf8Size = 1 from rfl,
          show ('\x7d' : Char).utf8Size = 1 from rfl]
        omega
      -- The rest is read first: the brace that closes the block stands before its tokens.
      rw [hlength] at hmore
      obtain ⟨ts, hts, hsame, hassembled⟩ := ihRest hp.2 hfollow hmore hnil
      have hclose : Lexes (n + 1 + byteLength body.source.toList)
          ('\x7d' :: (rest.source.toList ++ follow))
          (⟨.closeBrace, "\x7d", n + 1 + byteLength body.source.toList⟩ :: ts) :=
        .cons (show lexeme '\x7d' _ = .token .closeBrace ['\x7d'] _ from rfl) hts
      obtain ⟨ts', hts', hsame', hassembled'⟩ :=
        ihBody hp.1 (by simp [EndsText, stopsText, isBlank]) hclose (by rw [assemble])
      refine ⟨⟨.openBrace, "\x7b", n⟩ :: ts', ?_, fun opened => ?_, ?_⟩
      · rw [hsource, List.cons_append, List.append_assoc]
        exact .cons (show lexeme '\x7b' _ = .token .openBrace ['\x7b'] _ from rfl) hts'
      · rw [← hsame opened]
        exact hsame' (n :: opened)
      · rw [assemble, hassembled', assemble, hassembled]
        rfl

/-- Writing patterns out and compiling texts undo each other, except that offsets
then tell where the items are written. -/
theorem source_compile_inverse :
    (∀ (s : String) (p : Pattern), compile s = .ok p → p.source = s) ∧
      ∀ p : Pattern, p.Writable → compile p.source = .ok (p.placed 0) := by
  refine ⟨fun s p => source_of_compile, fun p hp => ?_⟩
  obtain ⟨ts, hts, hbraces, hassembled⟩ :=
    hp.readsAs (⟨rfl, rfl⟩ : EndsText []) (n := 0) .nil rfl
  rw [List.append_nil] at hts
  rw [compile_of_lexes hts, hbraces]
  simp only [braceDefect?, List.head?_nil, Option.map_none, ofTokens, hassembled]

/-- The first colon is text, and so is the bracket behind the hole. -/
theorem source_compile_inverse_colon :
    ∃ q p : Pattern, q.Writable ∧ q.source = "::[x]] \x7b:[[b]]\x7d" ∧
      compile q.source = .ok (q.placed 0) ∧ compile "::[x]] \x7b:[[b]]\x7d" = .ok p ∧
      p.source = "::[x]] \x7b:[[b]]\x7d" := by
  have hq : (text ":" 9 (hole ⟨"x", .any, .one⟩ 9 (text "] " 9
      (block 9 (hole ⟨"b", .any, .block⟩ 9 nil) nil)))).Writable := by
    refine ⟨by decide, ⟨by decide, by decide, by decide⟩, by simp [BeginsOther], by decide, rfl,
      by decide, ⟨by decide, by decide, by decide⟩, by simp [BeginsOther],
      ⟨by decide, rfl, trivial⟩, trivial⟩
  have hcompile := source_compile_inverse.2 _ hq
  exact ⟨_, _, hq, by decide, hcompile, hcompile, source_compile_inverse.1 _ _ hcompile⟩

end Pattern

end Stencil
