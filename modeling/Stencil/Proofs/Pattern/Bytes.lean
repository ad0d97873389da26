import Stencil.Proofs.Pattern.Lexing
import Stencil.Proofs.Target.Bytes

/-!
# Lexing bytes

The lexer once more, on bytes: its place is an offset, it looks at bytes, and it cuts each
token and each name out of the text between two offsets.  Every cut is between two
characters, and what it reads is what is read character by character.
-/

namespace Stencil

namespace ByteLexer

open ByteScanner (Stands Reflects reflects_of_ascii reflects_eq utf8Size_of_ascii skipWhile)

/-! ## Cuts -/

/-- The text from byte `start` to byte `stop`; `none` where one of them is beyond the text
or inside a character, or the second comes before the first. -/
def slice? (text : List Char) (start stop : Nat) : Option (List Char) := do
  if start ≤ stop then
    let (_, rest) ← splitBytes? start text
    let (value, _) ← splitBytes? (stop - start) rest
    return value
  else none

def Ahead (text : List Char) (pos : Nat) (cs : List Char) : Prop :=
  ∃ front, text = front ++ cs ∧ byteLength front = pos

namespace Ahead

variable {text cs value rest : List Char} {pos : Nat}

theorem start (text : List Char) : Ahead text 0 text := ⟨[], rfl, rfl⟩

theorem advance (value : List Char) (h : Ahead text pos (value ++ rest)) :
    Ahead text (pos + byteLength value) rest := by
  obtain ⟨front, htext, hpos⟩ := h
  exact ⟨front ++ value, by rw [htext, List.append_assoc], by rw [byteLength_append, hpos]⟩

theorem byteLength_eq (h : Ahead text pos cs) : byteLength text = pos + byteLength cs := by
  obtain ⟨front, htext, hpos⟩ := h
  rw [htext, byteLength_append, hpos]

theorem stands (h : Ahead text pos cs) : Stands (utf8Bytes text) pos cs := by
  obtain ⟨front, rfl, rfl⟩ := h
  simpa using (Stands.start (front ++ cs)).advance

theorem slice?_eq (h : Ahead text pos (value ++ rest)) :
    slice? text pos (pos + byteLength value) = some value := by
  obtain ⟨front, htext, hpos⟩ := h
  have hfront := splitBytes?_eq_some_iff.mpr ⟨htext, hpos⟩
  have hvalue : splitBytes? (byteLength value) (value ++ rest) = some (value, rest) :=
    splitBytes?_eq_some_iff.mpr ⟨rfl, rfl⟩
  simp [slice?, hfront, hvalue]

end Ahead

/-! ## Bytes -/

def isNameByte (b : UInt8) : Bool :=
  ('0'.toUInt8 ≤ b && b ≤ '9'.toUInt8) || ('A'.toUInt8 ≤ b && b ≤ 'Z'.toUInt8) ||
    ('a'.toUInt8 ≤ b && b ≤ 'z'.toUInt8) || b == '_'.toUInt8

def atHole (bytes : List UInt8) (pos : Nat) : Bool :=
  bytes[pos]? == some ':'.toUInt8 && bytes[pos + 1]? == some '['.toUInt8

def skipText (bytes : List UInt8) (pos : Nat) : Nat :=
  if h : pos < bytes.length then
    if bytes[pos] == '\x7b'.toUInt8 || bytes[pos] == '\x7d'.toUInt8 ||
        ByteScanner.isBlank bytes[pos] || atHole bytes pos then pos
    else skipText bytes (pos + 1)
  else pos
  termination_by bytes.length - pos

def standsAt? (bytes mark : List UInt8) (pos : Nat) : Option Bool :=
  if pos ≤ bytes.length then some (mark.isPrefixOf (bytes.drop pos)) else none

/-! ## Tokens -/

def readName? (text : List Char) (quantifier : Quantifier) (start pos : Nat) :
    Option (Except HoleError TokenKind × Nat) := do
  let bytes := utf8Bytes text
  let stop := skipWhile bytes isNameByte pos
  let name ← slice? text pos stop
  let closing := utf8Bytes quantifier.closing.toList
  if !(← standsAt? bytes closing stop) then return (.error (.unterminated start), stop)
  else if name.isEmpty then return (.error (.emptyName start), stop)
  else if !isName name then return (.error (.unterminated start), stop)
  else return (.ok (.hole ⟨String.ofList name, .any, quantifier⟩), stop + closing.length)

def readToken? (text : List Char) (start : Nat) (b : UInt8) :
    Option (Except HoleError TokenKind × Nat) := do
  let bytes := utf8Bytes text
  if b == '\x7b'.toUInt8 then return (.ok .openBrace, start + 1)
  else if b == '\x7d'.toUInt8 then return (.ok .closeBrace, start + 1)
  else if ByteScanner.isBlank b then
    let stop := skipWhile bytes ByteScanner.isBlank start
    let _ ← slice? text start stop
    return (.ok .blank, stop)
  else if atHole bytes start then
    if bytes[start + 2]? == some '['.toUInt8 then readName? text .block start (start + 3)
    else readName? text .one start (start + 2)
  else
    let stop := skipText bytes start
    let _ ← slice? text start stop
    return (.ok .text, stop)

/-! ## Progress -/

section

variable {bytes : List UInt8} {pos : Nat} {b : UInt8}

theorem skipText_of_lt (hb : bytes[pos]? = some b) :
    skipText bytes pos =
      if b == '\x7b'.toUInt8 || b == '\x7d'.toUInt8 || ByteScanner.isBlank b || atHole bytes pos
      then pos else skipText bytes (pos + 1) := by
  obtain ⟨hpos, rfl⟩ := List.getElem?_eq_some_iff.mp hb
  rw [skipText, dif_pos hpos]

theorem le_skipText (bytes : List UInt8) (pos : Nat) : pos ≤ skipText bytes pos := by
  fun_induction skipText bytes pos with
  | case1 | case3 => exact Nat.le_refl _
  | case2 pos _ _ ih => omega

theorem le_skipWhile (bytes : List UInt8) (p : UInt8 → Bool) (pos : Nat) :
    pos ≤ skipWhile bytes p pos := by
  fun_induction skipWhile bytes p pos with
  | case1 pos _ _ ih => omega
  | case2 | case3 => exact Nat.le_refl _

end

theorem le_of_readName? {text : List Char} {q : Quantifier} {start pos stop : Nat}
    {result : Except HoleError TokenKind} (h : readName? text q start pos = some (result, stop)) :
    pos ≤ stop := by
  have hle := le_skipWhile (utf8Bytes text) isNameByte pos
  simp only [readName?, Option.bind_eq_bind, Option.bind_eq_some_iff] at h
  obtain ⟨name, _, closed, _, h⟩ := h
  split_ifs at h with hopen hempty hinvalid
  · obtain ⟨_, rfl⟩ := Prod.mk.inj (Option.some.inj h)
    exact hle
  · obtain ⟨_, rfl⟩ := Prod.mk.inj (Option.some.inj h)
    exact hle
  · obtain ⟨_, rfl⟩ := Prod.mk.inj (Option.some.inj h)
    exact hle
  · obtain ⟨_, rfl⟩ := Prod.mk.inj (Option.some.inj h)
    exact Nat.le_add_right_of_le hle

theorem lt_of_readToken? {text : List Char} {start stop : Nat} {b : UInt8}
    {result : Except HoleError TokenKind} (hb : (utf8Bytes text)[start]? = some b)
    (h : readToken? text start b = some (result, stop)) : start < stop := by
  simp only [readToken?, Option.bind_eq_bind] at h
  split_ifs at h with hopening hclosing hblank hhole hblock
  · obtain ⟨_, rfl⟩ := Prod.mk.inj (Option.some.inj h)
    exact Nat.lt_succ_self start
  · obtain ⟨_, rfl⟩ := Prod.mk.inj (Option.some.inj h)
    exact Nat.lt_succ_self start
  · obtain ⟨_, _, h⟩ := Option.bind_eq_some_iff.mp h
    obtain ⟨_, rfl⟩ := Prod.mk.inj (Option.some.inj h)
    rw [ByteScanner.skipWhile_of_lt hb, if_pos hblank]
    exact le_skipWhile _ _ (start + 1)
  · have hname := le_of_readName? h
    omega
  · have hname := le_of_readName? h
    omega
  · obtain ⟨_, _, h⟩ := Option.bind_eq_some_iff.mp h
    obtain ⟨_, rfl⟩ := Prod.mk.inj (Option.some.inj h)
    rw [skipText_of_lt hb, if_neg (by simp [hopening, hclosing, hblank, hhole])]
    exact le_skipText _ (start + 1)

/-! ## Calls -/

/-- What a call gives that begins at byte `start`, and the place where the lexer is then;
`none` where a cut fails. -/
def tokenizeFrom? (text : List Char) (start : Nat) :
    Option (Except HoleError (List Token) × Nat) :=
  match hb : (utf8Bytes text)[start]? with
  | none => some (.ok [⟨.finish, "", byteLength text⟩], start)
  | some b =>
    match h : readToken? text start b with
    | none => none
    | some (.error e, stop) => some (.error e, stop)
    | some (.ok kind, stop) =>
      have : start < (utf8Bytes text).length := (List.getElem?_eq_some_iff.mp hb).1
      have : start < stop := lt_of_readToken? hb h
      do
        let value ← slice? text start stop
        let (result, last) ← tokenizeFrom? text stop
        return (result.map (⟨kind, String.ofList value, start⟩ :: ·), last)
  termination_by (utf8Bytes text).length - start
  decreasing_by omega

section

variable {text : List Char} {start stop : Nat} {b : UInt8}

theorem tokenizeFrom?_of_end (hb : (utf8Bytes text)[start]? = none) :
    tokenizeFrom? text start = some (.ok [⟨.finish, "", byteLength text⟩], start) := by
  rw [tokenizeFrom?]
  split
  · rfl
  · simp_all

theorem tokenizeFrom?_of_error {e : HoleError} (hb : (utf8Bytes text)[start]? = some b)
    (h : readToken? text start b = some (.error e, stop)) :
    tokenizeFrom? text start = some (.error e, stop) := by
  rw [tokenizeFrom?]
  split
  · simp_all
  · rename_i b' hb'
    obtain rfl : b = b' := Option.some.inj (hb.symm.trans hb')
    split <;> simp_all

theorem tokenizeFrom?_of_ok {kind : TokenKind} (hb : (utf8Bytes text)[start]? = some b)
    (h : readToken? text start b = some (.ok kind, stop)) :
    tokenizeFrom? text start = do
      let value ← slice? text start stop
      let (result, last) ← tokenizeFrom? text stop
      return (result.map (⟨kind, String.ofList value, start⟩ :: ·), last) := by
  rw [tokenizeFrom?]
  split
  · simp_all
  · rename_i b' hb'
    obtain rfl : b = b' := Option.some.inj (hb.symm.trans hb')
    split <;> simp_all

end

def after? (text : List Char) : Nat → Option Nat
  | 0 => some 0
  | n + 1 => do
    let start ← after? text n
    let (_, stop) ← tokenizeFrom? text start
    return stop

/-! ## Characters -/

theorem isAlphanum_eq_false {c : Char} (hc : 0x80 ≤ c.toNat) : c.isAlphanum = false := by
  have hval : 0x80 ≤ c.val.toNat := hc
  rw [Bool.eq_false_iff]
  intro halnum
  delta Char.isAlphanum Char.isAlpha Char.isUpper Char.isLower Char.isDigit at halnum
  simp [UInt32.le_iff_toNat_le] at halnum
  omega

theorem reflects_isNameByte : Reflects isNameByte isNameChar := by
  refine reflects_of_ascii (r := false) (by decide +kernel) fun c hc => ?_
  have hne : c ≠ '_' := ByteScanner.ne_of_ascii (by decide) hc
  rw [isNameChar, isAlphanum_eq_false hc, beq_eq_false_iff_ne.mpr hne]
  rfl

section

variable {bytes : List UInt8} {pos : Nat} {cs : List Char}

theorem atHole_eq {c : Char} (h : Stands bytes pos (c :: cs)) :
    atHole bytes pos = (c == ':' && cs.head? == some '[') := by
  rw [atHole, h.beq_head? (a := ':') (by decide), List.head?_cons]
  by_cases hc : c = ':'
  · subst hc
    rw [(h.tail_ascii (by decide)).beq_head? (by decide)]
    simp
  · simp [beq_eq_false_iff_ne.mpr hc]

theorem skipText_succ {b : UInt8} (hb : bytes[pos]? = some b)
    (hplain : b ≠ '\x7b'.toUInt8 ∧ b ≠ '\x7d'.toUInt8 ∧ ByteScanner.isBlank b = false ∧
      b ≠ ':'.toUInt8) :
    skipText bytes pos = skipText bytes (pos + 1) := by
  simp [skipText_of_lt hb, atHole, hb, hplain]

theorem skipText_eq (h : Stands bytes pos cs) :
    skipText bytes pos = pos + byteLength (textRun cs) := by
  induction cs generalizing pos with
  | nil =>
      have hend := h.length_eq
      rw [skipText, dif_neg (by simp at hend; omega)]
      rfl
  | cons c cs ih =>
      obtain ⟨lead, hlead, hb, _⟩ := h.getElem?_lead
      have heq : ∀ {a : Char}, a.toNat < 0x80 → (lead == a.toUInt8) = (c == a) :=
        fun ha => reflects_eq ha c lead hlead
      have hstops : (lead == '\x7b'.toUInt8 || lead == '\x7d'.toUInt8 ||
          ByteScanner.isBlank lead || atHole bytes pos) = stopsText (c :: cs) := by
        rw [heq (a := '\x7b') (by decide), heq (a := '\x7d') (by decide),
          ByteScanner.reflects_isBlank c lead hlead, atHole_eq h]
        rfl
      rw [textRun_cons]
      cases hcase : stopsText (c :: cs) with
      | true =>
          rw [skipText_of_lt hb, hstops, hcase, if_pos rfl, if_pos rfl]
          rfl
      | false =>
          have hpass : skipText bytes pos = skipText bytes (pos + c.utf8Size) := by
            by_cases hc : c = ':'
            · rw [skipText_of_lt hb, hstops, hcase, if_neg (by simp), hc,
                utf8Size_of_ascii (by decide)]
            · simp only [stopsText, Bool.or_eq_false_iff, beq_eq_false_iff_ne] at hcase
              exact h.pass (fun _ _ => skipText_succ) fun b hmem =>
                ⟨ByteScanner.ne_toUInt8 (by decide) hcase.1.1.1 b hmem,
                  ByteScanner.ne_toUInt8 (by decide) hcase.1.1.2 b hmem,
                  (ByteScanner.reflects_isBlank c b hmem).trans hcase.1.2,
                  ByteScanner.ne_toUInt8 (by decide) hc b hmem⟩
          rw [hpass, ih h.tail, if_neg (by simp), byteLength_cons, Nat.add_assoc]

theorem utf8EncodeChar_ascii {a : Char} (ha : a.toNat < 0x80) :
    String.utf8EncodeChar a = [a.toUInt8] :=
  String.utf8EncodeChar_eq_singleton (utf8Size_of_ascii ha)

theorem standsAt?_eq (mark : List Char) (hmark : ∀ a ∈ mark, a.toNat < 0x80)
    (h : Stands bytes pos cs) :
    standsAt? bytes (utf8Bytes mark) pos = some (mark.isPrefixOf cs) := by
  rw [standsAt?, if_pos h.pos_le, h.drop_eq, Option.some.injEq]
  induction mark generalizing pos cs with
  | nil => rfl
  | cons a mark ih =>
      rw [List.forall_mem_cons] at hmark
      rw [utf8Bytes_cons, utf8EncodeChar_ascii hmark.1]
      cases cs with
      | nil => rfl
      | cons c cs =>
          by_cases hc : c = a
          · subst hc
            rw [utf8Bytes_cons, utf8EncodeChar_ascii hmark.1]
            simpa [List.isPrefixOf] using ih hmark.2 h.tail
          · obtain ⟨lead, tail, hbytes, _⟩ := ByteScanner.exists_lead c
            have hlead := ByteScanner.ne_toUInt8 hmark.1 hc lead (by simp [hbytes])
            rw [utf8Bytes_cons, hbytes]
            simp [List.isPrefixOf, beq_eq_false_iff_ne.mpr hlead.symm,
              beq_eq_false_iff_ne.mpr (Ne.symm hc)]

end

/-! ## The same tokens -/

def answer (start : Nat) : Lexed → Except HoleError TokenKind × Nat
  | .token kind value _ => (.ok kind, start + byteLength value)
  | .malformed error read _ => (.error (error start), start + byteLength read)

section

variable {text cs : List Char} {start : Nat}

theorem readName?_eq {q : Quantifier}
    (h : Ahead text (start + byteLength q.opening.toList) cs) :
    readName? text q start (start + byteLength q.opening.toList) =
      some (answer start (lexHole q cs)) := by
  have hsplit : cs.takeWhile isNameChar ++ cs.dropWhile isNameChar = cs :=
    List.takeWhile_append_dropWhile
  have hname := (hsplit.symm ▸ h).slice?_eq
  have hclosing := standsAt?_eq q.closing.toList (by cases q <;> simp [Quantifier.closing])
    ((hsplit.symm ▸ h).advance _).stands
  simp only [readName?, ByteScanner.skipWhile_eq reflects_isNameByte h.stands, hname, hclosing,
    Option.bind_eq_bind, Option.bind_some, lexHole]
  generalize cs.takeWhile isNameChar = name
  generalize cs.dropWhile isNameChar = after
  cases hdrop : dropFront? q.closing.toList after with
  | none =>
      have hopen : q.closing.toList.isPrefixOf after = false := by
        rw [← Bool.not_eq_true, List.isPrefixOf_iff_prefix]
        rintro ⟨rest, hrest⟩
        simp [dropFront?_eq_some_iff.mpr hrest.symm] at hdrop
      simp [hopen, answer, Nat.add_assoc]
  | some rest =>
      have hclosed : q.closing.toList.isPrefixOf after = true := by
        rw [List.isPrefixOf_iff_prefix]
        exact ⟨rest, (dropFront?_eq_some_iff.mp hdrop).symm⟩
      simp only [hclosed, Bool.not_true, Bool.false_eq_true, if_false]
      split
      · rename_i hempty
        simp [List.isEmpty_iff.mp hempty, answer]
      · cases hvalid : isName name <;> simp [answer, Nat.add_assoc]

theorem readHole?_eq {after : List Char} (h : Ahead text start (':' :: '[' :: after)) :
    (if (utf8Bytes text)[start + 2]? == some '['.toUInt8 then
      readName? text .block start (start + 3)
      else readName? text .one start (start + 2)) =
      some (answer start (lexeme ':' ('[' :: after))) := by
  have hafter : Ahead text (start + 2) after := h.advance [':', '[']
  rw [hafter.stands.beq_head? (by decide)]
  by_cases hblock : after.head? = some '['
  · obtain ⟨rest, rfl⟩ := List.head?_eq_some_iff.mp hblock
    have hrest : Ahead text (start + 3) rest := h.advance [':', '[', '[']
    rw [if_pos (by simp)]
    exact readName?_eq hrest
  · rw [if_neg (by simpa using hblock), lexeme_one fun cs hcs => hblock (by rw [hcs]; rfl)]
    exact readName?_eq hafter

theorem readToken?_eq {c : Char} {b : UInt8} (h : Ahead text start (c :: cs))
    (hb : (utf8Bytes text)[start]? = some b) :
    readToken? text start b = some (answer start (lexeme c cs)) := by
  have hmem : b ∈ String.utf8EncodeChar c := by
    obtain ⟨lead, hlead, hb', _⟩ := h.stands.getElem?_lead
    rw [hb, Option.some.injEq] at hb'
    exact hb' ▸ hlead
  have heq : ∀ {a : Char}, a.toNat < 0x80 → (b == a.toUInt8) = (c == a) :=
    fun ha => reflects_eq ha c b hmem
  simp only [readToken?, heq (a := '\x7b') (by decide), heq (a := '\x7d') (by decide),
    ByteScanner.reflects_isBlank c b hmem, atHole_eq h.stands, skipText_eq h.stands,
    ByteScanner.skipWhile_eq ByteScanner.reflects_isBlank h.stands]
  cases hstops : stopsText (c :: cs) with
  | false =>
      have hrun : textRun (c :: cs) = c :: textRun cs := by
        rw [textRun_cons, if_neg (by simp [hstops])]
      have hsplit : c :: cs = textRun (c :: cs) ++ cs.drop (textRun cs).length := by
        rw [hrun, List.cons_append, List.prefix_iff_eq_append.mp (textRun_isPrefix cs)]
      have hslice := (hsplit ▸ h).slice?_eq
      rw [hrun, byteLength_cons] at hslice
      rw [lexeme_plain hstops]
      simp only [stopsText, Bool.or_eq_false_iff] at hstops
      simp [hstops, hslice, answer, hrun]
  | true =>
      simp only [stopsText, Bool.or_eq_true, Bool.and_eq_true, beq_iff_eq] at hstops
      rcases hstops with ((rfl | rfl) | hblank) | ⟨rfl, hbracket⟩
      · rfl
      · rfl
      · have hopening : (c == '\x7b') = false :=
          beq_eq_false_iff_ne.mpr (by rintro rfl; cases hblank)
        have hclosing : (c == '\x7d') = false :=
          beq_eq_false_iff_ne.mpr (by rintro rfl; cases hblank)
        have hsplit : c :: cs = (c :: cs).takeWhile isBlank ++ (c :: cs).dropWhile isBlank :=
          List.takeWhile_append_dropWhile.symm
        have hslice := (hsplit ▸ h).slice?_eq
        rw [List.takeWhile_cons_of_pos hblank, byteLength_cons] at hslice
        rw [lexeme_blank hblank]
        simp [hopening, hclosing, hblank, hslice, answer]
      · obtain ⟨after, rfl⟩ := List.head?_eq_some_iff.mp hbracket
        exact readHole?_eq h

/-- By bytes the lexer reads the same tokens as by characters, fails with the same errors
and comes to the same places, and no cut fails. -/
theorem tokenizeFrom?_eq (h : Ahead text start cs) :
    tokenizeFrom? text start =
      some ((Lexer.mk cs start).tokenize.1, (Lexer.mk cs start).tokenize.2.offset) := by
  induction hlength : cs.length using Nat.strongRecOn generalizing start cs with
  | ind length ih =>
      cases cs with
      | nil =>
          have hend := h.byteLength_eq
          rw [tokenizeFrom?_of_end (List.getElem?_eq_none (by simp [hend])), hend, Lexer.tokenize]
          rfl
      | cons c cs =>
          obtain ⟨b, _, hb, _⟩ := h.stands.getElem?_lead
          have hread := readToken?_eq h hb
          rcases lexeme_cases c cs with ⟨kind, value, rest, htoken, hwhole, hvalue, _⟩ |
            ⟨_, error, read, rest, _, _, _, hmalformed, _⟩
          · have hshort : rest.length < length := by
              rw [← hlength, hwhole, List.length_append]
              have := List.length_pos_iff.mpr hvalue
              omega
            rw [htoken] at hread
            rw [hwhole] at h
            rw [tokenizeFrom?_of_ok hb hread, h.slice?_eq, Lexer.tokenize_eq_of_token htoken]
            simp [ih _ hshort (h.advance value) rfl]
          · rw [hmalformed] at hread
            rw [tokenizeFrom?_of_error hb hread, Lexer.tokenize_eq_of_malformed hmalformed]

end

end ByteLexer

end Stencil
