/-!
# YAML values

The values of a YAML document without anchors and tags.  A scalar keeps its text;
whether it was written plainly decides if it can stand for nothing.
-/

namespace Stencil

inductive Yaml where
  | scalar (text : String) (plain : Bool)
  | sequence (elements : List Yaml)
  | mapping (entries : List (Yaml × Yaml))
  deriving Repr, Inhabited

namespace Yaml

def blank : Yaml := scalar "" true

def text? : Yaml → Option String
  | scalar text _ => some text
  | _ => none

def isNull : Yaml → Bool
  | scalar text true => ["", "~", "null", "Null", "NULL"].contains text
  | _ => false

def elements? : Yaml → Option (List Yaml)
  | sequence elements => some elements
  | scalar "" true => some []
  | _ => none

def entries? : Yaml → Option (List (String × Yaml))
  | mapping entries => entries.mapM fun (key, value) => key.text?.map (·, value)
  | scalar "" true => some []
  | _ => none

def texts? (value : Yaml) : Option (List String) := value.elements?.bind (·.mapM text?)

end Yaml

end Stencil
