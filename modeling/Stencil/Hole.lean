import Stencil.NameMap
/-!
# Holes

A hole stands for text that a pattern does not fix.  Its quantifier says how
much it may take and its capture kind says which texts it accepts.  Kinds are
known by name; a vocabulary says what each name accepts.
-/

namespace Stencil

/-! ## Quantifiers -/

inductive Quantifier where
  /-- Exactly one balanced unit. -/
  | one
  /-- As many atoms as fit, up to the closer of the enclosing group. -/
  | block
  deriving DecidableEq, Repr, Hashable

namespace Quantifier

def opening : Quantifier → String
  | one => ":["
  | block => ":[["

def closing : Quantifier → String
  | one => "]"
  | block => "]]"

def label : Quantifier → String
  | one => "One"
  | block => "Block"

end Quantifier

/-! ## Names -/

def isNameStart (c : Char) : Bool := c.isAlpha || c == '_'

def isNameChar (c : Char) : Bool := c.isAlphanum || c == '_'

def isName : List Char → Bool
  | [] => false
  | c :: cs => isNameStart c && cs.all isNameChar

/-! ## Capture kinds -/

/-- A constraint on captured text, known by its name alone. -/
structure CaptureKind where
  name : String
  deriving DecidableEq, Repr, Hashable

def CaptureKind.any : CaptureKind := ⟨"any"⟩

def CaptureKind.identifier : CaptureKind := ⟨"identifier"⟩

structure Vocabulary where
  strategies : List (String × (List Char → Bool))

namespace Vocabulary

def builtin : Vocabulary := ⟨[("identifier", isName)]⟩

def register (v : Vocabulary) (name : String) (accepts : List Char → Bool) : Vocabulary :=
  ⟨v.strategies ++ [(name, accepts)]⟩

def accepts (v : Vocabulary) (kind : CaptureKind) (text : List Char) : Bool :=
  kind == .any ||
    match v.strategies.lookup kind.name with
    | some strategy => strategy text
    | none => false

def kind? (v : Vocabulary) (name : String) : Option CaptureKind :=
  if name == "any" then some .any
  else if name == "identifier" || name == "ident" then some .identifier
  else if (v.strategies.lookup name).isSome then some ⟨name⟩
  else none

end Vocabulary

/-! ## Holes -/

structure Hole where
  name : String
  kind : CaptureKind := .any
  quantifier : Quantifier
  deriving DecidableEq, Repr, Hashable

namespace Hole

def source (h : Hole) : String := h.quantifier.opening ++ h.name ++ h.quantifier.closing

def label (h : Hole) : String :=
  if h.kind = .any ∧ h.quantifier = .one then h.name
  else s!"{h.name}:{h.kind.name}:{h.quantifier.label}"

end Hole

end Stencil
