import Stencil.Json
import Stencil.Proofs.Pattern.Lexing
import Stencil.Proofs.Text.Utf8
import Stencil.Yaml.Scalar

/-!
# JSON tokens

What the tokens of JSON are written as, and a scanner for them.  The scanner reads
exactly the texts in which tokens are written one after the other with blanks around
them, and it reads the tokens that are written.  Numbers are natural numbers here, so a
fraction or an exponent is not read.
-/

namespace Stencil

namespace Json

/-! ## Characters of a string -/

def isPlain (c : Char) : Bool := 0x20 ≤ c.toNat && c != '"' && c != '\\'

def shortEscape? : Char → Option Char
  | '"' => some '"'
  | '\\' => some '\\'
  | '/' => some '/'
  | 'b' => some '\x08'
  | 'f' => some '\x0c'
  | 'n' => some '\n'
  | 'r' => some '\r'
  | 't' => some '\t'
  | _ => none

def joined? (high low : Nat) : Option Char :=
  if 0xd800 ≤ high ∧ high < 0xdc00 ∧ 0xdc00 ≤ low ∧ low < 0xe000 then
    some (Char.ofNat (0x10000 + (high - 0xd800) * 0x400 + (low - 0xdc00)))
  else none

def IsUnit (n : Nat) (digits : List Char) : Prop :=
  digits.length = 4 ∧ Yaml.hexValue digits = some n

inductive SpellsChar : Char → List Char → Prop where
  | plain {c : Char} (h : isPlain c = true) : SpellsChar c [c]
  | short {c letter : Char} (h : shortEscape? letter = some c) : SpellsChar c ['\\', letter]
  | unit {c : Char} {digits : List Char} (h : IsUnit c.toNat digits) :
    SpellsChar c ('\\' :: 'u' :: digits)
  | pair {c : Char} {high low : Nat} {digits digits' : List Char} (h : IsUnit high digits)
    (h' : IsUnit low digits') (hc : joined? high low = some c) :
    SpellsChar c ('\\' :: 'u' :: (digits ++ '\\' :: 'u' :: digits'))

def readUnit? (cs : List Char) : Option (Nat × List Char) :=
  if cs.length < 4 then none else (Yaml.hexValue (cs.take 4)).map (·, cs.drop 4)

def readUnicode? (cs : List Char) : Option (Char × List Char) :=
  match readUnit? cs with
  | none => none
  | some (n, rest) =>
    if n.isValidChar then some (Char.ofNat n, rest)
    else
      match (dropFront? ['\\', 'u'] rest).bind readUnit? with
      | none => none
      | some (low, rest) => (joined? n low).map (·, rest)

def readChar? : List Char → Option (Char × List Char)
  | '\\' :: 'u' :: rest => readUnicode? rest
  | '\\' :: letter :: rest => (shortEscape? letter).map (·, rest)
  | c :: rest => if isPlain c then some (c, rest) else none
  | [] => none

section

variable {c : Char} {n : Nat} {cs rest : List Char}

theorem readUnit?_eq_some_iff :
    readUnit? cs = some (n, rest) ↔ ∃ digits, IsUnit n digits ∧ cs = digits ++ rest := by
  unfold readUnit?
  constructor
  · intro h
    split at h
    · simp at h
    · rename_i hlen
      obtain ⟨_, hvalue, heq⟩ := Option.map_eq_some_iff.mp h
      obtain ⟨rfl, rfl⟩ := Prod.mk.inj heq
      refine ⟨cs.take 4, ⟨?_, hvalue⟩, (List.take_append_drop 4 cs).symm⟩
      rw [List.length_take]
      omega
  · rintro ⟨digits, ⟨hlen, hvalue⟩, rfl⟩
    rw [if_neg (by simp [hlen]), List.take_left' hlen, List.drop_left' hlen, hvalue]
    rfl

theorem not_isValidChar_of_joined {high low : Nat} (h : joined? high low = some c) :
    ¬ high.isValidChar := by
  unfold joined? at h
  split at h
  · simp only [Nat.isValidChar]
    omega
  · simp at h

theorem readUnicode?_eq_some_iff :
    readUnicode? cs = some (c, rest) ↔
      (∃ digits, IsUnit c.toNat digits ∧ cs = digits ++ rest) ∨
        ∃ digits digits' high low, IsUnit high digits ∧ IsUnit low digits' ∧
          joined? high low = some c ∧ cs = digits ++ '\\' :: 'u' :: (digits' ++ rest) := by
  unfold readUnicode?
  constructor
  · intro h
    split at h
    · simp at h
    · rename_i n after hunit
      obtain ⟨digits, hdigits, rfl⟩ := readUnit?_eq_some_iff.mp hunit
      split at h
      · rename_i hvalid
        simp only [Option.some.injEq, Prod.mk.injEq] at h
        obtain ⟨rfl, rfl⟩ := h
        exact .inl ⟨digits, by rwa [toNat_ofNat hvalid], rfl⟩
      · split at h
        · simp at h
        · rename_i low rest' hlow
          obtain ⟨_, hc, heq⟩ := Option.map_eq_some_iff.mp h
          obtain ⟨rfl, rfl⟩ := Prod.mk.inj heq
          obtain ⟨after', hdrop, hlow⟩ := Option.bind_eq_some_iff.mp hlow
          obtain ⟨digits', hdigits', rfl⟩ := readUnit?_eq_some_iff.mp hlow
          rw [dropFront?_eq_some_iff.mp hdrop]
          exact .inr ⟨digits, digits', n, low, hdigits, hdigits', hc, rfl⟩
  · rintro (⟨digits, hdigits, rfl⟩ | ⟨digits, digits', high, low, hdigits, hdigits', hc, rfl⟩)
    · have hvalid : c.toNat.isValidChar := c.valid
      simp only [readUnit?_eq_some_iff.mpr ⟨digits, hdigits, rfl⟩, if_pos hvalid, Char.ofNat_toNat]
    · have hdrop : dropFront? ['\\', 'u'] ('\\' :: 'u' :: (digits' ++ rest)) =
          some (digits' ++ rest) := dropFront?_eq_some_iff.mpr rfl
      simp only [readUnit?_eq_some_iff.mpr ⟨digits, hdigits, rfl⟩,
        if_neg (not_isValidChar_of_joined hc), hdrop, Option.bind_some,
        readUnit?_eq_some_iff.mpr ⟨digits', hdigits', rfl⟩, hc, Option.map_some]

theorem ne_of_shortEscape {letter : Char} (h : shortEscape? letter = some c) : letter ≠ 'u' := by
  rintro rfl
  cases h

theorem readChar?_eq_some_iff :
    readChar? cs = some (c, rest) ↔ ∃ text, SpellsChar c text ∧ cs = text ++ rest := by
  constructor
  · intro h
    unfold readChar? at h
    split at h
    · rename_i after
      rcases readUnicode?_eq_some_iff.mp h with
        ⟨digits, hdigits, rfl⟩ | ⟨digits, digits', high, low, hdigits, hdigits', hc, rfl⟩
      · exact ⟨_, .unit hdigits, rfl⟩
      · exact ⟨_, .pair hdigits hdigits' hc, by simp⟩
    · obtain ⟨_, hletter, heq⟩ := Option.map_eq_some_iff.mp h
      obtain ⟨rfl, rfl⟩ := Prod.mk.inj heq
      exact ⟨_, .short hletter, rfl⟩
    · split at h
      · simp only [Option.some.injEq, Prod.mk.injEq] at h
        obtain ⟨rfl, rfl⟩ := h
        exact ⟨_, .plain ‹_›, rfl⟩
      · simp at h
    · simp at h
  · rintro ⟨text, htext, rfl⟩
    cases htext with
    | plain hplain =>
        have hne : c ≠ '\\' := by
          rintro rfl
          cases hplain
        simp [readChar?, hne, hplain]
    | short hletter =>
        have hne := ne_of_shortEscape hletter
        rw [List.cons_append, List.cons_append, List.nil_append, readChar?, hletter]
        · rfl
        · exact hne
    | unit hdigits => exact readUnicode?_eq_some_iff.mpr (.inl ⟨_, hdigits, rfl⟩)
    | pair hdigits hdigits' hc =>
        exact readUnicode?_eq_some_iff.mpr (.inr ⟨_, _, _, _, hdigits, hdigits', hc, by simp⟩)

end

/-! ## Strings -/

inductive SpellsText : List Char → List Char → Prop where
  | nil : SpellsText [] []
  | cons {c : Char} {value text text' : List Char} (hc : SpellsChar c text)
    (h : SpellsText value text') : SpellsText (c :: value) (text ++ text')

theorem length_lt_of_readChar {c : Char} {cs rest : List Char} (h : readChar? cs = some (c, rest)) :
    rest.length < cs.length := by
  obtain ⟨text, htext, rfl⟩ := readChar?_eq_some_iff.mp h
  cases htext <;> simp <;> omega

def readText? (cs : List Char) : Option (List Char × List Char) :=
  match cs with
  | '"' :: rest => some ([], rest)
  | cs =>
    match h : readChar? cs with
    | none => none
    | some (c, rest) =>
      have := length_lt_of_readChar h
      (readText? rest).map fun (value, after) => (c :: value, after)
  termination_by cs.length
  decreasing_by exact this

section

variable {c : Char} {value cs rest : List Char}

theorem readText?_quote (rest : List Char) : readText? ('"' :: rest) = some ([], rest) := by
  rw [readText?]

theorem readText?_of_readChar (h : readChar? cs = some (c, rest)) :
    readText? cs = (readText? rest).map fun (value, after) => (c :: value, after) := by
  rw [readText?]
  · split
    · simp_all
    · simp_all
  · rintro rest' rfl
    cases h

theorem readText?_eq_some_iff :
    readText? cs = some (value, rest) ↔
      ∃ text, SpellsText value text ∧ cs = text ++ '"' :: rest := by
  constructor
  · intro h
    fun_induction readText? cs generalizing value with
    | case1 after =>
        simp only [Option.some.injEq, Prod.mk.injEq] at h
        obtain ⟨rfl, rfl⟩ := h
        exact ⟨[], .nil, rfl⟩
    | case2 => simp at h
    | case3 cs _ c after hread _ ih =>
        obtain ⟨⟨value', _⟩, hrest, heq⟩ := Option.map_eq_some_iff.mp h
        obtain ⟨rfl, rfl⟩ := Prod.mk.inj heq
        obtain ⟨text, htext, rfl⟩ := readChar?_eq_some_iff.mp hread
        obtain ⟨text', htext', rfl⟩ := ih hrest
        exact ⟨text ++ text', .cons htext htext', by simp⟩
  · rintro ⟨text, htext, rfl⟩
    induction htext with
    | nil => exact readText?_quote rest
    | cons hc _ ih =>
        rw [List.append_assoc, readText?_of_readChar (readChar?_eq_some_iff.mpr ⟨_, hc, rfl⟩), ih]
        rfl

end

/-! ## Numbers -/

structure IsNumber (n : Nat) (digits : List Char) : Prop where
  ne_nil : digits ≠ []
  isDigit : ∀ c ∈ digits, c.isDigit = true
  short : digits.head? = some '0' → digits = ['0']
  value : Nat.ofDigitChars 10 digits 0 = n

def readNumber? (cs : List Char) : Option (Nat × List Char) :=
  let digits := cs.takeWhile (·.isDigit)
  if digits = [] ∨ digits.head? = some '0' ∧ digits ≠ ['0'] then none
  else some (Nat.ofDigitChars 10 digits 0, cs.dropWhile (·.isDigit))

def EndsNumber (rest : List Char) : Prop := ∀ c ∈ rest.head?, c.isDigit = false

section

variable {n : Nat} {cs rest : List Char}

theorem endsNumber_nil : EndsNumber [] := nofun

theorem endsNumber_cons {c : Char} (h : c.isDigit = false) (cs : List Char) :
    EndsNumber (c :: cs) := by
  rintro _ ⟨⟩
  exact h

theorem endsNumber_dropWhile (cs : List Char) : EndsNumber (cs.dropWhile (·.isDigit)) := by
  intro c hc
  have hhead := List.head?_dropWhile_not (·.isDigit) cs
  rw [Option.mem_def.mp hc] at hhead
  simpa using hhead

theorem EndsNumber.takeWhile (h : EndsNumber rest) : rest.takeWhile (·.isDigit) = [] := by
  cases rest with
  | nil => rfl
  | cons c rest => simp [h c rfl]

theorem EndsNumber.dropWhile (h : EndsNumber rest) : rest.dropWhile (·.isDigit) = rest := by
  cases rest with
  | nil => rfl
  | cons c rest => simp [h c rfl]

theorem readNumber?_eq_some_iff :
    readNumber? cs = some (n, rest) ↔
      ∃ digits, IsNumber n digits ∧ EndsNumber rest ∧ cs = digits ++ rest := by
  constructor
  · intro h
    simp only [readNumber?] at h
    split at h
    · simp at h
    · rename_i hdigits
      simp only [Option.some.injEq, Prod.mk.injEq] at h
      obtain ⟨hvalue, rfl⟩ := h
      simp only [not_or, not_and, Decidable.not_not] at hdigits
      exact ⟨_, ⟨hdigits.1, List.all_eq_true.mp List.all_takeWhile, hdigits.2, hvalue⟩,
        endsNumber_dropWhile cs, List.takeWhile_append_dropWhile.symm⟩
  · rintro ⟨digits, hdigits, hends, rfl⟩
    have htake : (digits ++ rest).takeWhile (·.isDigit) = digits := by
      rw [List.takeWhile_append_of_pos hdigits.isDigit, hends.takeWhile, List.append_nil]
    have hdrop : (digits ++ rest).dropWhile (·.isDigit) = rest := by
      rw [List.dropWhile_append_of_pos hdigits.isDigit, hends.dropWhile]
    have hshort : ¬ (digits = [] ∨ digits.head? = some '0' ∧ digits ≠ ['0']) := by
      simp only [not_or, not_and, Decidable.not_not]
      exact ⟨hdigits.ne_nil, hdigits.short⟩
    simp only [readNumber?, htake, hdrop, if_neg hshort, hdigits.value]

end

theorem eq_zero_of_head_toDigits {n : Nat} (h : (Nat.toDigits 10 n).head? = some '0') : n = 0 := by
  induction n using Nat.strongRecOn with
  | _ n ih =>
      by_cases hn : n < 10
      · rw [Nat.toDigits_of_lt_base hn] at h
        exact Nat.digitChar_eq_zero.mp (Option.some.inj h)
      -- the first digit is that of the number without its last one
      · have hhead : (Nat.toDigits 10 (n / 10)).head? = some '0' := by
          rwa [Nat.toDigits_of_base_le (by omega) (by omega),
            List.head?_append, Option.or_of_isSome (by simp [Nat.toDigits_ne_nil])] at h
        have hzero := ih (n / 10) (by omega) hhead
        omega

theorem isNumber_toDigits (n : Nat) : IsNumber n (Nat.toDigits 10 n) where
  ne_nil := Nat.toDigits_ne_nil
  isDigit c hc := Nat.isDigit_of_mem_toDigits (by omega) (by omega) hc
  short hhead := by
    have hzero := eq_zero_of_head_toDigits hhead
    subst hzero
    rfl
  value := Nat.ofDigitChars_ten_toDigits

/-! ## Tokens -/

inductive Token where
  | openBracket
  | closeBracket
  | openBrace
  | closeBrace
  | comma
  | colon
  | null
  | bool (value : Bool)
  | number (value : Nat)
  | string (value : String)
  deriving DecidableEq, Repr

def fixedTokens : List (List Char × Token) :=
  [(['['], .openBracket), ([']'], .closeBracket), (['\x7b'], .openBrace), (['\x7d'], .closeBrace),
    ([','], .comma), ([':'], .colon), (['n', 'u', 'l', 'l'], .null),
    (['t', 'r', 'u', 'e'], .bool true), (['f', 'a', 'l', 's', 'e'], .bool false)]

inductive Token.Spelled : Token → List Char → Prop where
  | fixed {t : Token} {text : List Char} (h : (text, t) ∈ fixedTokens) : Spelled t text
  | number {n : Nat} {digits : List Char} (h : IsNumber n digits) : Spelled (.number n) digits
  | string {value : String} {text : List Char} (h : SpellsText value.toList text) :
    Spelled (.string value) ('"' :: (text ++ ['"']))

def Token.Ends (t : Token) (rest : List Char) : Prop := ∀ n, t = .number n → EndsNumber rest

def readFixed? (cs : List Char) : Option (Token × List Char) :=
  fixedTokens.findSome? fun (text, t) => (dropFront? text cs).map (t, ·)

def readToken? : List Char → Option (Token × List Char)
  | [] => none
  | c :: cs =>
    if c = '"' then
      (readText? cs).map fun (value, rest) => (.string (String.ofList value), rest)
    else if c.isDigit then (readNumber? (c :: cs)).map fun (n, rest) => (.number n, rest)
    else readFixed? (c :: cs)

section

variable {t : Token} {ts : List Token} {cs rest : List Char}

theorem readFixed?_eq_some_iff :
    readFixed? cs = some (t, rest) ↔ ∃ text, (text, t) ∈ fixedTokens ∧ cs = text ++ rest := by
  constructor
  · intro h
    obtain ⟨⟨text, t'⟩, hmem, hfront⟩ := List.exists_of_findSome?_eq_some h
    obtain ⟨_, hdrop, heq⟩ := Option.map_eq_some_iff.mp hfront
    obtain ⟨rfl, rfl⟩ := Prod.mk.inj heq
    exact ⟨text, hmem, dropFront?_eq_some_iff.mp hdrop⟩
  · rintro ⟨text, hmem, rfl⟩
    simp only [fixedTokens, List.mem_cons, Prod.mk.injEq, List.not_mem_nil, or_false] at hmem
    rcases hmem with ⟨rfl, rfl⟩ | ⟨rfl, rfl⟩ | ⟨rfl, rfl⟩ | ⟨rfl, rfl⟩ | ⟨rfl, rfl⟩ | ⟨rfl, rfl⟩ |
      ⟨rfl, rfl⟩ | ⟨rfl, rfl⟩ | ⟨rfl, rfl⟩ <;> rfl

theorem head_of_mem_fixedTokens {text : List Char} (h : (text, t) ∈ fixedTokens) :
    ∃ c cs, text = c :: cs ∧ c ≠ '"' ∧ c.isDigit = false ∧ ∀ n, t ≠ .number n := by
  simp only [fixedTokens, List.mem_cons, Prod.mk.injEq, List.not_mem_nil, or_false] at h
  rcases h with ⟨rfl, rfl⟩ | ⟨rfl, rfl⟩ | ⟨rfl, rfl⟩ | ⟨rfl, rfl⟩ | ⟨rfl, rfl⟩ | ⟨rfl, rfl⟩ |
    ⟨rfl, rfl⟩ | ⟨rfl, rfl⟩ | ⟨rfl, rfl⟩ <;> exact ⟨_, _, rfl, by decide, by decide, nofun⟩

theorem ends_of_ne_number (h : ∀ n, t ≠ .number n) (rest : List Char) : t.Ends rest :=
  fun n hn => absurd hn (h n)

theorem readToken?_eq_some_iff :
    readToken? cs = some (t, rest) ↔
      ∃ text, t.Spelled text ∧ t.Ends rest ∧ cs = text ++ rest := by
  constructor
  · intro h
    unfold readToken? at h
    split at h
    · simp at h
    · split at h
      · rename_i hquote
        obtain ⟨⟨value, _⟩, hread, heq⟩ := Option.map_eq_some_iff.mp h
        obtain ⟨rfl, rfl⟩ := Prod.mk.inj heq
        obtain ⟨text, htext, rfl⟩ := readText?_eq_some_iff.mp hread
        exact ⟨_, .string (by simpa using htext), ends_of_ne_number (by simp) _, by simp [hquote]⟩
      · split at h
        · obtain ⟨⟨n, _⟩, hread, heq⟩ := Option.map_eq_some_iff.mp h
          obtain ⟨rfl, rfl⟩ := Prod.mk.inj heq
          obtain ⟨digits, hdigits, hends, htext⟩ := readNumber?_eq_some_iff.mp hread
          exact ⟨digits, .number hdigits, fun _ _ => hends, htext⟩
        · obtain ⟨text, hmem, htext⟩ := readFixed?_eq_some_iff.mp h
          obtain ⟨_, _, _, _, _, hnumber⟩ := head_of_mem_fixedTokens hmem
          exact ⟨text, .fixed hmem, ends_of_ne_number hnumber _, htext⟩
  · rintro ⟨text, htext, hends, rfl⟩
    cases htext with
    | fixed hmem =>
        have hread : readFixed? (text ++ rest) = some (t, rest) :=
          readFixed?_eq_some_iff.mpr ⟨text, hmem, rfl⟩
        obtain ⟨c, cs, rfl, hquote, hdigit, _⟩ := head_of_mem_fixedTokens hmem
        simpa [readToken?, hquote, hdigit] using hread
    | @number n _ hdigits =>
        have hread : readNumber? (text ++ rest) = some (n, rest) :=
          readNumber?_eq_some_iff.mpr ⟨text, hdigits, hends n rfl, rfl⟩
        cases text with
        | nil => exact absurd rfl hdigits.ne_nil
        | cons c cs =>
            have hdigit : c.isDigit = true := hdigits.isDigit c (by simp)
            have hquote : c ≠ '"' := by
              rintro rfl
              cases hdigit
            simpa [readToken?, hquote, hdigit] using hread
    | @string value text hvalue =>
        have hread : readText? (text ++ '"' :: rest) = some (value.toList, rest) :=
          readText?_eq_some_iff.mpr ⟨text, hvalue, rfl⟩
        simp [readToken?, hread]

/-! ## Texts -/

def isBlank (c : Char) : Bool := [' ', '\t', '\n', '\r'].contains c

/-- The tokens are written one behind the other, with any blanks. -/
inductive Writes : List Token → List Char → Prop where
  | nil : Writes [] []
  | blank {ts : List Token} {c : Char} {cs : List Char} (hc : isBlank c = true) (h : Writes ts cs) :
    Writes ts (c :: cs)
  | cons {t : Token} {ts : List Token} {text rest : List Char} (ht : t.Spelled text)
    (hends : t.Ends rest) (h : Writes ts rest) : Writes (t :: ts) (text ++ rest)

theorem length_lt_of_readToken (h : readToken? cs = some (t, rest)) : rest.length < cs.length := by
  obtain ⟨text, htext, _, rfl⟩ := readToken?_eq_some_iff.mp h
  have hne : text ≠ [] := by
    cases htext with
    | fixed hmem =>
        obtain ⟨_, _, rfl, _⟩ := head_of_mem_fixedTokens hmem
        exact List.cons_ne_nil _ _
    | number hdigits => exact hdigits.ne_nil
    | string => exact List.cons_ne_nil _ _
  rw [List.length_append]
  have := List.length_pos_iff.mpr hne
  omega

theorem readToken?_of_isBlank {c : Char} (hc : isBlank c = true) : readToken? (c :: cs) = none := by
  simp only [isBlank, List.contains_cons, Bool.or_eq_true, beq_iff_eq, List.contains_nil,
    Bool.false_eq_true, or_false] at hc
  rcases hc with rfl | rfl | rfl | rfl <;> rfl

def scan? (cs : List Char) : Option (List Token) :=
  match cs with
  | [] => some []
  | c :: cs =>
    if isBlank c then scan? cs
    else
      match h : readToken? (c :: cs) with
      | none => none
      | some (t, rest) =>
        have := length_lt_of_readToken h
        (scan? rest).map (t :: ·)
  termination_by cs.length
  decreasing_by
    · exact Nat.lt_succ_self _
    · exact this

theorem scan?_of_readToken (h : readToken? cs = some (t, rest)) :
    scan? cs = (scan? rest).map (t :: ·) := by
  cases cs with
  | nil => cases h
  | cons c cs =>
      rw [scan?]
      split
      · rw [readToken?_of_isBlank ‹_›] at h
        cases h
      · split
        · simp_all
        · simp_all

theorem scan?_eq_some_iff : scan? cs = some ts ↔ Writes ts cs := by
  constructor
  · intro h
    fun_induction scan? cs generalizing ts with
    | case1 =>
        obtain rfl := Option.some.inj h
        exact .nil
    | case2 c cs hblank ih => exact .blank hblank (ih h)
    | case3 => simp at h
    | case4 c cs _ t rest hread _ ih =>
        obtain ⟨ts', hrest, rfl⟩ := Option.map_eq_some_iff.mp h
        obtain ⟨text, htext, hends, heq⟩ := readToken?_eq_some_iff.mp hread
        rw [heq]
        exact .cons htext hends (ih hrest)
  · intro h
    induction h with
    | nil => rw [scan?]
    | blank hblank _ ih => rw [scan?, if_pos hblank, ih]
    | cons htext hends _ ih =>
        rw [scan?_of_readToken (readToken?_eq_some_iff.mpr ⟨_, htext, hends, rfl⟩), ih]
        rfl

end

/-! ## Quoted texts -/

theorem hexValue_hexPair {n : Nat} (h : n < 0x20) :
    Yaml.hexValue ('0' :: '0' :: (hexPair n).toList) = some n := by
  revert n
  decide

theorem spellsChar_escapeChar (c : Char) : SpellsChar c (escapeChar c).toList := by
  unfold escapeChar
  split
  · exact .short rfl
  · exact .short rfl
  · exact .short rfl
  · exact .short rfl
  · exact .short rfl
  · exact .short rfl
  · exact .short rfl
  · split
    · rename_i hlt
      rw [String.toList_append]
      exact .unit ⟨by simp [hexPair], hexValue_hexPair hlt⟩
    · rename_i hquote hbackslash _ _ _ _ _ hle
      have hplain : isPlain c = true := by
        simp only [isPlain, Bool.and_eq_true, decide_eq_true_eq, bne_iff_ne]
        exact ⟨⟨by omega, hquote⟩, hbackslash⟩
      rw [Char.toString, String.toList_singleton]
      exact .plain hplain

theorem spellsText_escapeChar (cs : List Char) :
    SpellsText cs (String.join (cs.map escapeChar)).toList := by
  induction cs with
  | nil => exact .nil
  | cons c cs ih =>
      rw [List.map_cons, String.join_cons, String.toList_append]
      exact .cons (spellsChar_escapeChar c) ih

theorem spelled_quote (text : String) : (Token.string text).Spelled (quote text).toList := by
  have hquote : (quote text).toList =
      '"' :: ((String.join (text.toList.map escapeChar)).toList ++ ['"']) := by
    simp [quote]
  rw [hquote]
  exact .string (spellsText_escapeChar text.toList)

end Json

end Stencil
