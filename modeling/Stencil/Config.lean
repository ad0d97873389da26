import Stencil.FileTree
import Stencil.NameMap
import Stencil.Text.Blank
import Stencil.Text.Utf8
import Stencil.Yaml.Document
/-!
# Rule files

What a rule file says, and where it is read from.  Unknown and repeated keys are
refused.
-/

namespace Stencil

/-! ## Contents -/

structure RuleConfig where
  name : String
  pattern : String
  rewrite : Option String := none
  message : Option String := none
  severity : String := "warning"
  constraints : NameMap String := ∅
  /-- Globs of the paths the rule is for; none means all. -/
  includes : List String := []
  excludes : List String := []
  deriving DecidableEq, Repr

structure Config where
  extensions : List String := ["go", "gno"]
  /-- Globs of what directory walks leave out. -/
  excludes : List String := []
  rules : List RuleConfig := []
  path : Option String := none
  deriving DecidableEq, Repr

def Config.hasExtension (config : Config) (path : String) : Bool :=
  match Path.extension? path with
  | some extension => config.extensions.contains extension
  | none => false

/-! ## Reading -/

def fields? (known : List String) (value : Yaml) : Option (List (String × Yaml)) := do
  let entries ← value.entries?
  let names := entries.map (·.1)
  if names.all known.contains && names.eraseDups.length == names.length then some entries else none

def field? (fields : List (String × Yaml)) (name : String) (missing : α)
    (read : Yaml → Option α) : Option α :=
  match fields.lookup name with
  | none => some missing
  | some value => read value

def optionalText? (value : Yaml) : Option (Option String) :=
  if value.isNull then some none else value.text?.map some

def textMap? (value : Yaml) : Option (NameMap String) := do
  let entries ← value.entries?
  let texts ← entries.mapM fun (name, value) => value.text?.map (name, ·)
  return .ofList texts

namespace RuleConfig

def fieldNames : List String :=
  ["name", "pattern", "rewrite", "message", "severity", "where", "include", "exclude"]

def ofYaml? (value : Yaml) : Option RuleConfig := do
  let fields ← fields? fieldNames value
  return {
    name := ← (← fields.lookup "name").text?
    pattern := ← (← fields.lookup "pattern").text?
    rewrite := ← field? fields "rewrite" none optionalText?
    message := ← field? fields "message" none optionalText?
    severity := ← field? fields "severity" "warning" Yaml.text?
    constraints := ← field? fields "where" ∅ textMap?
    includes := ← field? fields "include" [] Yaml.texts?
    excludes := ← field? fields "exclude" [] Yaml.texts?
  }

end RuleConfig

namespace Config

def ofYaml? (value : Yaml) : Option Config := do
  let fields ← fields? ["extensions", "exclude", "rules"] value
  let usual : Config := {}
  return {
    extensions := ← field? fields "extensions" usual.extensions Yaml.texts?
    excludes := ← field? fields "exclude" [] Yaml.texts?
    rules := ← field? fields "rules" [] fun value =>
      value.elements?.bind (·.mapM RuleConfig.ofYaml?)
  }

/-- The contents of a rule file; a blank file says nothing. -/
def parse? (contents : String) : Option Config :=
  if (trim contents).isEmpty then some {} else (Yaml.read? contents).bind ofYaml?

/-! ## Loading -/

def defaultPath : String := ".holefix.yml"

inductive LoadError where
  | unreadable (path : String) (error : FileError)
  | malformed (path : String)
  deriving DecidableEq, Repr

def LoadError.message : LoadError → String
  | unreadable path e => s!"failed to read config {path}: {e.message}"
  | malformed path => s!"failed to parse {path}: <yaml error>"

def readText (tree : FileTree) (path : String) : Except FileError String :=
  match tree.read path with
  | .error e => .error e
  | .ok content =>
    match decode content with
    | .ok cs => .ok (String.ofList cs)
    | .error _ => .error .notUtf8

def loadFrom (tree : FileTree) (path : String) : Except LoadError Config :=
  match readText tree path with
  | .error e => .error (.unreadable path e)
  | .ok contents =>
    match parse? contents with
    | none => .error (.malformed path)
    | some config => .ok { config with path }

def load (tree : FileTree) (path : Option String) : Except LoadError Config :=
  match path with
  | some path => loadFrom tree path
  | none => if tree.exists? defaultPath then loadFrom tree defaultPath else .ok {}

end Config

end Stencil
