/-!
# Hash order

The order in which a hash table lists the texts that were put into it.  The table
has a power of two of slots, a text takes the first free slot from the one that its
hash names, and a table that is seven eighths full doubles.
-/

namespace Stencil.HashOrder

def hashBytes (bytes : List UInt8) : UInt64 :=
  bytes.foldl (fun hash b => (hash ^^^ b.toUInt64) * 0x100000001b3) 0xcbf29ce484222325

/-- The hash of a text covers its length, in eight bytes with the least first, and its
bytes. -/
def hashText (text : String) : UInt64 :=
  let bytes := text.toUTF8.toList
  let length := (List.range 8).map fun place => (bytes.length >>> (8 * place)).toUInt8
  hashBytes (length ++ bytes)

abbrev Slots : Type := List (Option String)

namespace Slots

def capacity (size : Nat) : Nat := if size ≤ 8 then size - 1 else size / 8 * 7

def place (slots : Slots) (text : String) : Slots :=
  let home := (hashText text).toNat % slots.length
  let tried := List.range' home (slots.length - home) ++ List.range home
  match tried.find? fun n => (slots.getD n none).isNone with
  | some n => slots.set n (some text)
  | none => slots

def doubled (slots : Slots) : Slots :=
  (slots.filterMap id).foldl place (List.replicate (2 * slots.length) none)

def insert (slots : Slots) (text : String) : Slots :=
  if slots.contains (some text) then slots
  else if (slots.filterMap id).length < capacity slots.length then slots.place text
  else slots.doubled.place text

end Slots

def list (texts : List String) : List String :=
  (texts.foldl Slots.insert (List.replicate 4 none)).filterMap id

end Stencil.HashOrder
