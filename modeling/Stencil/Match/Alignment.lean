import Stencil.Match.Program
/-!
# Alignments

The search for a way to lay a program along a target from a given token.  Each
instruction has a list of successor states, the longest capture first.  Where a
hole leaves a choice the search forks; the branches not yet tried wait, and the
one that has forked last is tried next.
-/

namespace Stencil

/-- Tokens `first` to `last`, the latter not included. -/
structure TokenRange where
  first : Nat
  last : Nat
  deriving DecidableEq, Repr

structure State where
  position : Nat
  /-- The closers of the pattern blocks entered so far, innermost first. -/
  scopes : List Nat
  /-- The latest binding first. -/
  bindings : List (String × TokenRange)
  deriving DecidableEq, Repr

namespace State

def start (i : Nat) : State := ⟨i, [], []⟩

def limit (s : State) (t : Target) : Nat := s.scopes.headD t.size

def bind (s : State) (name : String) (stop : Nat) : State :=
  { s with position := stop, bindings := (name, ⟨s.position, stop⟩) :: s.bindings }

def isFree (s : State) : Instr → Bool
  | .hole h => (s.bindings.lookup h.name).isNone
  | _ => false

end State

namespace Target

/-! ## Capture ends -/

def groupEnds (t : Target) (limit i : Nat) : List Nat :=
  if i < limit ∧ t.isOpening i then t.after i :: t.groupEnds limit (t.after i) else []
  termination_by limit - i
  decreasing_by
    have : i < t.after i := by
      unfold Target.after
      split <;> omega
    omega

/-- Where a hole for one unit may end: a bracket group, a punctuation or comment
token, or a word or literal with any number of the groups glued to it.
Shortest first. -/
def unitEnds (t : Target) (limit i : Nat) : List Nat :=
  if i < limit then
    match t.kind? i with
    | none | some .blank | some (.closing _) => []
    | some (.opening _) => [t.after i]
    | some .comment | some .punct => [i + 1]
    | some .word | some .literal => (i + 1) :: t.groupEnds limit (i + 1)
  else []

/-- Where a hole for a block may end: at any atom boundary.  Shortest first. -/
def atomEnds (t : Target) (limit i : Nat) : List Nat :=
  if i < limit then i :: t.atomEnds limit (t.after i) else [i]
  termination_by limit - i
  decreasing_by
    have : i < t.after i := by
      unfold Target.after
      split <;> omega
    omega

def captureEnds (t : Target) (quantifier : Quantifier) (limit i : Nat) : List Nat :=
  match quantifier with
  | .one => t.unitEnds limit i
  | .block => t.atomEnds limit i

def acceptedEnds (t : Target) (v : Vocabulary) (kind : CaptureKind) (i : Nat)
    (ends : List Nat) : List Nat :=
  if kind = .any then ends else ends.filter fun stop => v.accepts kind (t.text i stop)

end Target

/-! ## Search -/

/-- The states after one instruction, in the order in which they are tried.  A
name that is bound already stands for the text it is bound to. -/
def successors (v : Vocabulary) (t : Target) (instr : Instr) (s : State) : List State :=
  match instr with
  | .text segs =>
    match t.readAt? segs s.position (s.limit t) with
    | some stop => [{ s with position := stop }]
    | none => []
  | .enter =>
    if s.position < s.limit t ∧ t.kind? s.position = some (.opening .brace) then
      [{ s with position := s.position + 1, scopes := t.partner s.position :: s.scopes }]
    else []
  | .leave =>
    if s.scopes.head? = some s.position then
      [{ s with position := s.position + 1, scopes := s.scopes.tail }]
    else []
  | .hole h =>
    match s.bindings.lookup h.name with
    | some bound =>
      match t.readAt? [.literal (t.text bound.first bound.last)] s.position (s.limit t) with
      | some stop => [{ s with position := stop }]
      | none => []
    | none =>
      let limit := min (s.limit t) (t.scopeEnd s.position)
      let ends := (t.captureEnds h.quantifier limit s.position).reverse
      (t.acceptedEnds v h.kind s.position ends).map (s.bind h.name)

structure Branch where
  ahead : List Instr
  state : State
  deriving DecidableEq, Repr

inductive Progress where
  | done (s : State)
  /-- The choices of a free hole; none of them where the branch fails. -/
  | forked (branches : List Branch)
  deriving DecidableEq, Repr

def advance (v : Vocabulary) (t : Target) : List Instr → State → Progress
  | [], s => .done s
  | instr :: rest, s =>
    let next := successors v t instr s
    if s.isFree instr then .forked (next.map (⟨rest, ·⟩))
    else match next with
      | [] => .forked []
      | s' :: _ => advance v t rest s'

/-! ## Waiting branches -/

def statesBelow (v : Vocabulary) (t : Target) : List Instr → State → List State
  | [], s => [s]
  | instr :: rest, s => s :: (successors v t instr s).flatMap (statesBelow v t rest)

def Branch.states (v : Vocabulary) (t : Target) (b : Branch) : List State :=
  statesBelow v t b.ahead b.state

theorem length_states_lt_of_forked {v : Vocabulary} {t : Target} {ahead : List Instr} {s : State}
    {branches : List Branch} (h : advance v t ahead s = .forked branches) :
    (branches.flatMap (·.states v t)).length < (statesBelow v t ahead s).length := by
  induction ahead generalizing s with
  | nil => simp [advance] at h
  | cons instr rest ih =>
      simp only [advance] at h
      rw [statesBelow, List.length_cons]
      split at h
      · simp only [Progress.forked.injEq] at h
        subst h
        rw [List.flatMap_map]
        exact Nat.lt_succ_self _
      · split at h
        · simp only [Progress.forked.injEq] at h
          subst h
          exact Nat.succ_pos _
        · rename_i s' _ hnext
          have := ih h
          rw [hnext, List.flatMap_cons, List.length_append]
          omega

/-- The first state that waiting branches lead to; a branch that forks makes way
for the branches it forks into. -/
def explore (v : Vocabulary) (t : Target) : List Branch → Option State
  | [] => none
  | b :: waiting =>
    match h : advance v t b.ahead b.state with
    | .done s => some s
    | .forked branches =>
      have := length_states_lt_of_forked h
      explore v t (branches ++ waiting)
  termination_by waiting => (waiting.flatMap (·.states v t)).length
  decreasing_by
    rw [List.flatMap_append, List.flatMap_cons, List.length_append, List.length_append]
    exact Nat.add_lt_add_right this _

structure Alignment where
  first : Nat
  last : Nat
  bindings : List (String × TokenRange)
  deriving DecidableEq, Repr

def align (v : Vocabulary) (t : Target) (program : List Instr) (i : Nat) : Option Alignment :=
  (explore v t [⟨program, .start i⟩]).map fun s => ⟨i, s.position, s.bindings⟩

end Stencil
