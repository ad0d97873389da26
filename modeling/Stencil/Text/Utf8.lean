/-!
# UTF-8

Byte lengths of character lists, cutting a list at byte offsets, and reading
bytes back as characters.  Every offset in this library counts bytes of the
UTF-8 form.
-/

namespace Stencil

/-! ## Lengths and cuts -/

def byteLength : List Char → Nat
  | [] => 0
  | c :: cs => c.utf8Size + byteLength cs

/-- Cuts after exactly `n` bytes; `none` where that splits a character or runs
past the end. -/
def splitBytes? (n : Nat) (cs : List Char) : Option (List Char × List Char) :=
  match n, cs with
  | 0, cs => some ([], cs)
  | _ + 1, [] => none
  | n + 1, c :: cs =>
    if c.utf8Size ≤ n + 1 then
      (splitBytes? (n + 1 - c.utf8Size) cs).map fun (taken, rest) => (c :: taken, rest)
    else none

def takeBytes (n : Nat) (cs : List Char) : List Char :=
  match n, cs with
  | 0, _ => []
  | _ + 1, [] => []
  | n + 1, c :: cs => c :: takeBytes (n + 1 - c.utf8Size) cs

def dropBytes (n : Nat) (cs : List Char) : List Char :=
  match n, cs with
  | 0, cs => cs
  | _ + 1, [] => []
  | n + 1, c :: cs => dropBytes (n + 1 - c.utf8Size) cs

def sliceBytes (start stop : Nat) (cs : List Char) : List Char :=
  takeBytes (stop - start) (dropBytes start cs)

/-! ## Bytes -/

def utf8Bytes (cs : List Char) : List UInt8 := cs.flatMap String.utf8EncodeChar

/-- Where bytes stop being UTF-8: all before `validUpTo` reads, and the
offending sequence has `badLength` bytes, or is cut off by the end. -/
structure Utf8Fault where
  validUpTo : Nat
  badLength : Option Nat
  deriving DecidableEq, Repr

def Utf8Fault.message (fault : Utf8Fault) : String :=
  match fault.badLength with
  | some n => s!"invalid utf-8 sequence of {n} bytes from index {fault.validUpTo}"
  | none => s!"incomplete utf-8 byte sequence from index {fault.validUpTo}"

def isContinuation (b : UInt8) : Bool := b &&& 0xC0 == 0x80

/-- How many bytes a character takes that starts with `b`, and the least and
greatest byte that may follow; `none` where no character starts so. -/
def leadByte? (b : UInt8) : Option (Nat × UInt8 × UInt8) :=
  if b < 0x80 then some (1, 0x80, 0xBF)
  else if b < 0xC2 then none
  else if b < 0xE0 then some (2, 0x80, 0xBF)
  else if b == 0xE0 then some (3, 0xA0, 0xBF)
  else if b == 0xED then some (3, 0x80, 0x9F)
  else if b < 0xF0 then some (3, 0x80, 0xBF)
  else if b == 0xF0 then some (4, 0x90, 0xBF)
  else if b < 0xF4 then some (4, 0x80, 0xBF)
  else if b == 0xF4 then some (4, 0x80, 0x8F)
  else none

def pushBits (code : Nat) (b : UInt8) : Nat := code * 64 + b.toNat % 64

/-- The character that starts with `b`, and how many of the bytes after it
belong to it; a fault is the length of the bad sequence, `none` where the bytes
run out. -/
def readChar (b : UInt8) (rest : List UInt8) : Except (Option Nat) (Char × Nat) :=
  match leadByte? b, rest with
  | none, _ => .error (some 1)
  | some (1, _, _), _ => .ok (Char.ofNat b.toNat, 0)
  | some _, [] => .error none
  | some (size, least, greatest), b₁ :: rest =>
    if b₁ < least || greatest < b₁ then .error (some 1)
    else if size == 2 then .ok (Char.ofNat (pushBits (b.toNat % 32) b₁), 1)
    else match rest with
      | [] => .error none
      | b₂ :: rest =>
        if !isContinuation b₂ then .error (some 2)
        else if size == 3 then
          .ok (Char.ofNat (pushBits (pushBits (b.toNat % 16) b₁) b₂), 2)
        else match rest with
          | [] => .error none
          | b₃ :: _ =>
            if !isContinuation b₃ then .error (some 3)
            else .ok (Char.ofNat (pushBits (pushBits (pushBits (b.toNat % 8) b₁) b₂) b₃), 3)

def decodeFrom (start : Nat) : List UInt8 → Except Utf8Fault (List Char)
  | [] => .ok []
  | b :: bs =>
    match readChar b bs with
    | .error bad => .error ⟨start, bad⟩
    | .ok (c, extra) => (decodeFrom (start + 1 + extra) (bs.drop extra)).map (c :: ·)
  termination_by bytes => bytes.length
  decreasing_by simp only [List.length_drop, List.length_cons]; omega

def decode (bytes : List UInt8) : Except Utf8Fault (List Char) := decodeFrom 0 bytes

end Stencil
