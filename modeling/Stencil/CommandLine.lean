import Stencil.Config
import Stencil.Lint
import Stencil.Report
import Stencil.Text.Blank
/-!
# The command line

Options and paths as they are typed.  An argument that may still get its value is
pending; it is settled when the next option or path comes, so that a fault in it
is found only then, and not at all if the next option is unknown.
-/

namespace Stencil

structure Arguments where
  paths : List String := []
  config : Option String := none
  pattern : Option String := none
  rewrite : Option String := none
  /-- Constraints on holes, each `NAME=KIND`. -/
  clauses : List String := []
  format : Option String := none
  fix : Bool := false
  overlapping : Bool := false
  debug : Bool := false
  /-- The path that the source on standard input is taken to have. -/
  stdin : Option String := none
  listRules : Bool := false
  deriving DecidableEq, Repr

inductive UsageError where
  | unknownArgument
  | invalidValue
  | missingRequiredArgument
  | argumentConflict
  | tooManyValues
  | displayHelp
  | displayVersion
  deriving DecidableEq, Repr

def version : String := "0.1.0"

def usage : String :=
  "\n".intercalate [
    "usage: stencil [OPTIONS] [PATHS]...",
    "  -c, --config FILE       the rule file",
    "  -p, --pattern PATTERN   a pattern to search for",
    "  -r, --rewrite TEMPLATE  what to replace its matches by",
    "  -w, --where NAME=KIND   the capture kind of a hole of the pattern",
    "  -f, --format FORMAT     text or json",
    "      --fix               write the rewrites back",
    "      --overlapping       report overlapping matches",
    "      --debug             log more",
    "      --stdin PATH        read one source from standard input",
    "      --list-rules        list the rules",
    "  -h, --help",
    "  -V, --version"]

def UsageError.message : UsageError → String
  | unknownArgument => "unknown option"
  | invalidValue => "a value is missing or not possible here"
  | missingRequiredArgument => "this needs a pattern"
  | argumentConflict => "an option is given twice"
  | tooManyValues => "an option takes no value"
  | displayHelp => usage
  | displayVersion => "stencil " ++ version

namespace Arguments

/-! ## Options -/

inductive Slot where
  | config
  | pattern
  | rewrite
  | clause
  | format
  | stdin
  deriving DecidableEq, Repr

inductive Switch where
  | fix
  | overlapping
  | debug
  | listRules
  | help
  | version
  deriving DecidableEq, Repr

inductive Key where
  | slot (slot : Slot)
  | switch (switch : Switch)
  deriving DecidableEq, Repr

def longKey? : String → Option Key
  | "config" => some (.slot .config)
  | "pattern" => some (.slot .pattern)
  | "rewrite" => some (.slot .rewrite)
  | "where" => some (.slot .clause)
  | "format" => some (.slot .format)
  | "stdin" => some (.slot .stdin)
  | "fix" => some (.switch .fix)
  | "overlapping" => some (.switch .overlapping)
  | "debug" => some (.switch .debug)
  | "list-rules" => some (.switch .listRules)
  | "help" => some (.switch .help)
  | "version" => some (.switch .version)
  | _ => none

def shortKey? : Char → Option Key
  | 'c' => some (.slot .config)
  | 'p' => some (.slot .pattern)
  | 'r' => some (.slot .rewrite)
  | 'w' => some (.slot .clause)
  | 'f' => some (.slot .format)
  | 'h' => some (.switch .help)
  | 'V' => some (.switch .version)
  | _ => none

/-! ## Settling -/

def once (old : Option String) (value : String) (valid : Bool) (set : String → Arguments) :
    Except UsageError Arguments :=
  if old.isSome then .error .argumentConflict
  else if valid then .ok (set value)
  else .error .invalidValue

def setSlot (a : Arguments) (slot : Slot) (value : String) : Except UsageError Arguments :=
  match slot with
  | .config => once a.config value (value != "") fun v => { a with config := some v }
  | .pattern => once a.pattern value true fun v => { a with pattern := some v }
  | .rewrite => once a.rewrite value true fun v => { a with rewrite := some v }
  | .clause => .ok { a with clauses := a.clauses ++ [value] }
  | .format =>
    once a.format value (["text", "json"].contains value) fun v => { a with format := some v }
  | .stdin => once a.stdin value (value != "") fun v => { a with stdin := some v }

def setSwitch (a : Arguments) (switch : Switch) : Except UsageError Arguments :=
  let turn (old : Bool) (on : Arguments) : Except UsageError Arguments :=
    if old then .error .argumentConflict else .ok on
  match switch with
  | .fix => turn a.fix { a with fix := true }
  | .overlapping => turn a.overlapping { a with overlapping := true }
  | .debug => turn a.debug { a with debug := true }
  | .listRules => turn a.listRules { a with listRules := true }
  | .help => .error .displayHelp
  | .version => .error .displayVersion

inductive Pending where
  | nothing
  /-- An option, with its value once that has come. -/
  | option (slot : Slot) (value : Option String)
  | paths (values : List String)
  deriving DecidableEq, Repr

def settle (a : Arguments) : Pending → Except UsageError Arguments
  | .nothing => .ok a
  | .option _ none => .error .invalidValue
  | .option slot (some value) => a.setSlot slot value
  | .paths values =>
    if values.contains "" then .error .invalidValue
    else .ok { a with paths := a.paths ++ values }

/-! ## Parsing -/

def takeOption (a : Arguments) (pending : Pending) (slot : Slot) (attached : Option String) :
    Except UsageError (Arguments × Pending) := do
  let a ← a.settle pending
  match attached with
  | none => return (a, .option slot none)
  | some value => return (← a.setSlot slot value, .nothing)

def takeLong (a : Arguments) (pending : Pending) (name : String) (attached : Option String) :
    Except UsageError (Arguments × Pending) :=
  match longKey? name with
  | none => .error .unknownArgument
  | some (.slot slot) => a.takeOption pending slot attached
  | some (.switch switch) =>
    if attached.isSome then .error .tooManyValues
    else do
      let a ← a.settle pending
      return (← a.setSwitch switch, .nothing)

/-- Short options in one argument; what follows one that takes a value is the
value. -/
def takeShort (a : Arguments) (pending : Pending) :
    List Char → Except UsageError (Arguments × Pending)
  | [] => .ok (a, pending)
  | c :: cs =>
    match shortKey? c with
    | none => .error .unknownArgument
    | some (.slot slot) =>
      a.takeOption pending slot <|
        match cs with
        | [] => none
        | '=' :: value => some (String.ofList value)
        | value => some (String.ofList value)
    | some (.switch switch) => do
      let a ← a.settle pending
      takeShort (← a.setSwitch switch) .nothing cs

def splitLong (cs : List Char) : String × Option String :=
  let name := cs.takeWhile (· != '=')
  (String.ofList name,
    match cs.drop name.length with
    | _ :: value => some (String.ofList value)
    | [] => none)

def takePath (a : Arguments) (pending : Pending) (path : String) :
    Except UsageError (Arguments × Pending) :=
  match pending with
  | .paths values => .ok (a, .paths (values ++ [path]))
  | _ => (a.settle pending).map (·, .paths [path])

def takeArgument (a : Arguments) (pending : Pending) (arg : String) :
    Except UsageError (Arguments × Pending) :=
  match arg.toList, pending with
  | '-' :: '-' :: cs, _ =>
    let (name, attached) := splitLong cs
    a.takeLong pending name attached
  | '-' :: c :: cs, _ => a.takeShort pending (c :: cs)
  | _, .option slot none => .ok (a, .option slot (some arg))
  | _, _ => a.takePath pending arg

def parseFrom (a : Arguments) (pending : Pending) (onlyPaths : Bool) :
    List String → Except UsageError Arguments
  | [] => a.settle pending
  | arg :: rest =>
    if !onlyPaths && arg == "--" then parseFrom a pending true rest
    else do
      let (a, pending) ←
        if onlyPaths then a.takePath pending arg else a.takeArgument pending arg
      parseFrom a pending onlyPaths rest

/-- A rewrite and clauses need a pattern; the paths default to the working
directory. -/
def parse (argv : List String) : Except UsageError Arguments := do
  let a ← parseFrom {} .nothing false argv
  if a.pattern.isNone && (a.rewrite.isSome || !a.clauses.isEmpty) then
    throw .missingRequiredArgument
  return if a.paths.isEmpty then { a with paths := ["."] } else a

/-! ## Meaning -/

def formatName (a : Arguments) : String := a.format.getD "text"

def readsFiles (a : Arguments) : Bool := a.stdin.isNone && !a.listRules

def lintOptions (a : Arguments) : LintOptions := ⟨a.overlapping, a.fix⟩

structure ClauseError where
  clause : String
  deriving DecidableEq, Repr

def ClauseError.message (e : ClauseError) : String :=
  s!"--where expects NAME=KIND, got `{e.clause}`"

def splitClause (clause : String) : Except ClauseError (String × String) :=
  match splitLong clause.toList with
  | (_, none) => .error ⟨clause⟩
  | (name, some kind) => .ok (trim name, trim kind)

def adhocRule (a : Arguments) : Except ClauseError (Option RuleConfig) :=
  match a.pattern with
  | none => .ok none
  | some pattern =>
    (a.clauses.mapM splitClause).map fun constraints =>
      some {
        name := "pattern"
        pattern
        rewrite := a.rewrite
        constraints := .ofList constraints
      }

end Arguments

end Stencil
