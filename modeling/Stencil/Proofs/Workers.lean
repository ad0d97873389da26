import Stencil.Proofs.Changes
import Stencil.Proofs.Diagnostic

/-!
# Linting by workers

Each file has a worker of its own, and the workers share the file tree and the count of
fixes.  They go on in any order, a read, half of a write or a change of the count at a
time; a thread that takes several files in turn makes one of these orders.  Where a write
fails the worker gives up its fixes.  The log lines of a file are gathered with its
outcome, in whichever order they have come out.
-/

namespace Stencil

/-! ## Workers -/

inductive Stage where
  | waiting
  /-- The file has been linted, and the fixed content is to be written. -/
  | linted (result : LintResult) (fixed : List UInt8)
  /-- Writing has begun: the file has been emptied. -/
  | emptied (result : LintResult) (fixed : List UInt8)
  /-- The fixes are to be counted. -/
  | written (result : LintResult)
  | done (outcome : FileOutcome)

structure Worker where
  path : String
  stage : Stage

structure Shared where
  tree : FileTree
  correctedCount : Nat

namespace Worker

variable (rules : List Rule) (options : LintOptions)

def outcome? (w : Worker) : Option FileOutcome :=
  match w.stage with
  | .done outcome => some outcome
  | _ => none

def move (s : Shared) (w : Worker) : Shared × Worker :=
  match w.stage with
  | .waiting =>
    match s.tree.read w.path with
    | .error e =>
      (s, ⟨w.path, .done (.skipped w.path s!"failed to read {w.path}: {e.message}")⟩)
    | .ok content =>
      match lintSource ⟨w.path, content⟩ rules options with
      | .error e => (s, ⟨w.path, .done (.skipped w.path e.message)⟩)
      | .ok result =>
        match result.fixed with
        | none => (s, ⟨w.path, .done (.linted result.diagnostics 0 result.logs)⟩)
        | some fixed => (s, ⟨w.path, .linted result fixed⟩)
  | .linted result fixed =>
    match s.tree.clear w.path with
    | .ok tree => ({ s with tree }, ⟨w.path, .emptied result fixed⟩)
    | .error e => (s, ⟨w.path, .done (.unwritten w.path result e)⟩)
  | .emptied result fixed =>
    match s.tree.fill w.path fixed with
    | (none, tree) => ({ s with tree }, ⟨w.path, .written result⟩)
    | (some e, tree) => ({ s with tree }, ⟨w.path, .done (.unwritten w.path result e)⟩)
  | .written result =>
    let count := (result.diagnostics.filter (·.corrected)).length
    ({ s with correctedCount := s.correctedCount + count },
      ⟨w.path, .done (.linted result.diagnostics count result.logs)⟩)
  | .done _ => (s, w)

end Worker

structure Pool where
  shared : Shared
  workers : List Worker

namespace Pool

variable (rules : List Rule) (options : LintOptions)

def start (tree : FileTree) (files : List String) : Pool :=
  ⟨⟨tree, 0⟩, files.map (⟨·, .waiting⟩)⟩

def move (pool : Pool) (index : Nat) : Pool :=
  match pool.workers[index]? with
  | none => pool
  | some w =>
    let (shared, w) := w.move rules options pool.shared
    ⟨shared, pool.workers.set index w⟩

def run (pool : Pool) (schedule : List Nat) : Pool := schedule.foldl (move rules options) pool

def Finished (pool : Pool) : Prop := ∀ w ∈ pool.workers, ∃ outcome, w.stage = .done outcome

def outcomes (pool : Pool) : List FileOutcome := pool.workers.filterMap (·.outcome?)

def result (pool : Pool) : ProjectResult where
  diagnostics := Diagnostic.sort (pool.outcomes.flatMap (·.diagnostics))
  fileCount := pool.workers.length
  correctedCount := pool.shared.correctedCount
  skipped := pool.outcomes.filterMap (·.skippedPath?)
  logs := pool.outcomes.flatMap (·.logs)

end Pool

/-! ## Steps of one worker -/

namespace Shared

def change (s : Shared) (path : String) (content : Option (List UInt8)) (count : Nat) : Shared :=
  ⟨s.tree.update path content, s.correctedCount + count⟩

theorem change_comm {s : Shared} {p q : String} (h : s.tree.Apart p q)
    (c d : Option (List UInt8)) (m n : Nat) :
    (s.change p c m).change q d n = (s.change q d n).change p c m := by
  simp only [change, h.update_comm c d, Nat.add_right_comm s.correctedCount m n]

end Shared

namespace Worker

variable {rules : List Rule} {options : LintOptions}

/-- What a step does is up to what the file of the worker holds, where it is and what fails
with it. -/
theorem exists_change (w : Worker) (held : Except FileError (List UInt8))
    (found : Except FileError (List String)) (faults : List String → FileFaults) :
    ∃ content count stage, ∀ s : Shared, s.tree.read w.path = held →
      s.tree.filePlace w.path = found → s.tree.faultsAt = faults →
      w.move rules options s = (s.change w.path content count, ⟨w.path, stage⟩) := by
  obtain ⟨path, stage⟩ := w
  cases stage with
  | waiting =>
      cases held with
      | error e => exact ⟨none, 0, _, fun s hs _ _ => by simp only [move, hs]; rfl⟩
      | ok content =>
          cases hlint : lintSource ⟨path, content⟩ rules options with
          | error e => exact ⟨none, 0, _, fun s hs _ _ => by simp only [move, hs, hlint]; rfl⟩
          | ok result =>
              cases hfixed : result.fixed with
              | none =>
                  exact ⟨none, 0, _, fun s hs _ _ => by simp only [move, hs, hlint, hfixed]; rfl⟩
              | some fixed =>
                  exact ⟨none, 0, _, fun s hs _ _ => by simp only [move, hs, hlint, hfixed]; rfl⟩
  | linted result fixed =>
      cases found with
      | error e =>
          exact ⟨none, 0, _, fun s _ hs _ => by simp only [move, FileTree.clear_eq, hs]; rfl⟩
      | ok place =>
          cases hopening : (faults place).opening with
          | none =>
              exact ⟨some [], 0, _, fun s _ hs hf => by
                simp only [move, FileTree.clear_eq, hs, hf, hopening]; rfl⟩
          | some e =>
              exact ⟨none, 0, _, fun s _ hs hf => by
                simp only [move, FileTree.clear_eq, hs, hf, hopening]; rfl⟩
  | emptied result fixed =>
      cases found with
      | error e =>
          exact ⟨none, 0, _, fun s _ hs _ => by simp only [move, FileTree.fill_eq, hs]; rfl⟩
      | ok place =>
          cases hfilled : ((faults place).absorb fixed).1 with
          | none =>
              exact ⟨some _, 0, _, fun s _ hs hf => by
                simp only [move, FileTree.fill_eq, hs, hf, hfilled]; rfl⟩
          | some e =>
              exact ⟨some _, 0, _, fun s _ hs hf => by
                simp only [move, FileTree.fill_eq, hs, hf, hfilled]; rfl⟩
  | written result => exact ⟨none, _, _, fun s _ _ _ => rfl⟩
  | done outcome => exact ⟨none, 0, _, fun s _ _ _ => rfl⟩

variable {s s' : Shared} {w v : Worker}

@[simp] theorem path_move (s : Shared) (w : Worker) :
    (w.move rules options s).2.path = w.path := by
  obtain ⟨content, count, stage, hmove⟩ := w.exists_change _ _ _
  rw [hmove s rfl rfl rfl]

@[simp] theorem place?_move (s : Shared) (w : Worker) (q : String) :
    (w.move rules options s).1.tree.place? q = s.tree.place? q := by
  obtain ⟨content, count, stage, hmove⟩ := w.exists_change _ _ _
  rw [hmove s rfl rfl rfl]
  exact FileTree.place?_update s.tree w.path content q

@[simp] theorem apart_move (s : Shared) (w : Worker) :
    (w.move rules options s).1.tree.Apart = s.tree.Apart :=
  FileTree.apart_congr (place?_move s w)

/-- Steps of workers whose files lie apart can change places. -/
theorem move_comm (rules : List Rule) (options : LintOptions)
    (h : s.tree.Apart w.path v.path) :
    (v.move rules options (w.move rules options s).1).2 = (v.move rules options s).2 ∧
      (w.move rules options (v.move rules options s).1).2 = (w.move rules options s).2 ∧
      (v.move rules options (w.move rules options s).1).1 =
        (w.move rules options (v.move rules options s).1).1 := by
  obtain ⟨c, m, stage, hw⟩ := w.exists_change _ _ _
  obtain ⟨d, n, stage', hv⟩ := v.exists_change _ _ _
  -- either step finds the file of its worker as it was before the other
  have hvAfter := hv (s.change w.path c m) (h.read_update c)
    (FileTree.filePlace_update s.tree w.path c v.path) (FileTree.faultsAt_update s.tree w.path c)
  have hwAfter := hw (s.change v.path d n) (h.symm.read_update d)
    (FileTree.filePlace_update s.tree v.path d w.path) (FileTree.faultsAt_update s.tree v.path d)
  rw [hw s rfl rfl rfl, hv s rfl rfl rfl, hvAfter, hwAfter]
  exact ⟨rfl, rfl, Shared.change_comm h c d m n⟩

/-! ## All steps of one worker -/

def moves (rules : List Rule) (options : LintOptions) :
    Nat → Shared → Worker → Shared × Worker
  | 0, s, w => (s, w)
  | n + 1, s, w =>
    let (s, w) := w.move rules options s
    moves rules options n s w

/-- The work on one file without a break. -/
def complete (rules : List Rule) (options : LintOptions) (s : Shared) (w : Worker) :
    Shared × Worker :=
  moves rules options 4 s w

def remaining (w : Worker) : Nat :=
  match w.stage with
  | .waiting => 4
  | .linted _ _ => 3
  | .emptied _ _ => 2
  | .written _ => 1
  | .done _ => 0

theorem remaining_move (s : Shared) (w : Worker) :
    (w.move rules options s).2.remaining ≤ w.remaining - 1 := by
  unfold move
  cases hstage : w.stage with
  | waiting =>
      simp only
      split
      · exact Nat.zero_le _
      · split
        · exact Nat.zero_le _
        · split
          · exact Nat.zero_le _
          · simp [remaining, hstage]
  | linted result fixed =>
      simp only
      split
      · simp [remaining, hstage]
      · exact Nat.zero_le _
  | emptied result fixed =>
      simp only
      split
      · simp [remaining, hstage]
      · exact Nat.zero_le _
  | written result => exact Nat.zero_le _
  | done outcome => simp [remaining, hstage]

theorem remaining_eq_zero_iff : w.remaining = 0 ↔ ∃ outcome, w.stage = .done outcome := by
  unfold remaining
  cases w.stage <;> simp

theorem move_of_remaining (hw : w.remaining = 0) : w.move rules options s = (s, w) := by
  obtain ⟨outcome, hdone⟩ := remaining_eq_zero_iff.mp hw
  simp only [move, hdone]

theorem remaining_moves (n : Nat) (s : Shared) (w : Worker) :
    (w.moves rules options n s).2.remaining ≤ w.remaining - n := by
  induction n generalizing s w with
  | zero => exact Nat.le_refl _
  | succ n ih =>
      have hmove : (w.move rules options s).2.remaining ≤ w.remaining - 1 := remaining_move s w
      have hrest := ih (w.move rules options s).1 (w.move rules options s).2
      simp only [moves]
      omega

@[simp] theorem place?_moves (n : Nat) (s : Shared) (w : Worker) (q : String) :
    (w.moves rules options n s).1.tree.place? q = s.tree.place? q := by
  induction n generalizing s w with
  | zero => rfl
  | succ n ih => simp only [moves, ih, place?_move]

@[simp] theorem apart_complete (s : Shared) (w : Worker) :
    (w.complete rules options s).1.tree.Apart = s.tree.Apart :=
  FileTree.apart_congr (place?_moves 4 s w)

theorem moves_move (n : Nat) (s : Shared) (w : Worker) :
    w.moves rules options (n + 1) s =
      (w.move rules options s).2.moves rules options n (w.move rules options s).1 :=
  rfl

theorem moves_succ (n : Nat) (s : Shared) (w : Worker) :
    w.moves rules options (n + 1) s =
      (w.moves rules options n s).2.move rules options (w.moves rules options n s).1 := by
  induction n generalizing s w with
  | zero => rfl
  | succ n ih => exact ih _ _

theorem moves_of_remaining (hw : w.remaining = 0) (n : Nat) :
    w.moves rules options n s = (s, w) := by
  induction n with
  | zero => rfl
  | succ n ih => simp only [moves, move_of_remaining hw, ih]

theorem moves_move_comm (rules : List Rule) (options : LintOptions)
    (h : s.tree.Apart w.path v.path) (n : Nat) :
    (v.move rules options (w.moves rules options n s).1).2 = (v.move rules options s).2 ∧
      w.moves rules options n (v.move rules options s).1 =
        ((v.move rules options (w.moves rules options n s).1).1,
          (w.moves rules options n s).2) := by
  induction n generalizing s w with
  | zero => exact ⟨rfl, rfl⟩
  | succ n ih =>
      obtain ⟨hv, hw, hshared⟩ := move_comm rules options h
      obtain ⟨hrest, hmoves⟩ := ih (s := (w.move rules options s).1)
        (w := (w.move rules options s).2) (by rwa [apart_move, path_move])
      refine ⟨hrest.trans hv, ?_⟩
      simp only [moves, hw, ← hshared, hmoves]

theorem remaining_le (w : Worker) : w.remaining ≤ 4 := by
  unfold remaining
  split <;> omega

theorem remaining_complete (s : Shared) (w : Worker) :
    (w.complete rules options s).2.remaining = 0 := by
  have hmoves : (w.complete rules options s).2.remaining ≤ w.remaining - 4 :=
    remaining_moves 4 s w
  have hle := remaining_le w
  omega

/-- A step changes nothing in what the whole work comes to. -/
theorem complete_move (s : Shared) (w : Worker) :
    (w.move rules options s).2.complete rules options (w.move rules options s).1 =
      w.complete rules options s := by
  calc
    _ = w.moves rules options (4 + 1) s := (moves_move 4 s w).symm
    _ = (w.complete rules options s).2.move rules options (w.complete rules options s).1 :=
        moves_succ 4 s w
    _ = w.complete rules options s := move_of_remaining (remaining_complete s w)

theorem complete_waiting (s : Shared) (path : String) :
    complete rules options s ⟨path, .waiting⟩ =
      (⟨(s.tree.lintFile rules options path).2,
        s.correctedCount + (s.tree.lintFile rules options path).1.correctedCount⟩,
        ⟨path, .done (s.tree.lintFile rules options path).1⟩) := by
  unfold FileTree.lintFile
  cases hread : s.tree.read path with
  | error e =>
      simp only [complete, moves, move, hread]
      rfl
  | ok content =>
      cases hlint : lintSource ⟨path, content⟩ rules options with
      | error e =>
          simp only [complete, moves, move, hread, hlint]
          rfl
      | ok result =>
          cases hfixed : result.fixed with
          | none =>
              simp only [complete, moves, move, hread, hlint, hfixed]
              rfl
          | some fixed =>
              simp only [complete, moves, move, hread, hlint, hfixed, FileTree.write]
              cases s.tree.clear path with
              | error e => rfl
              | ok tree =>
                  simp only
                  obtain ⟨failure, filled⟩ := tree.fill path fixed
                  cases failure <;> rfl

end Worker

/-! ## Steps of all workers -/

namespace Pool

variable {rules : List Rule} {options : LintOptions} {pool : Pool}

theorem move_cases (rules : List Rule) (options : LintOptions) (pool : Pool) (index : Nat) :
    pool.move rules options index = pool ∨
      ∃ before w after, pool.workers = before ++ w :: after ∧ before.length = index ∧
        pool.move rules options index =
          ⟨(w.move rules options pool.shared).1,
            before ++ (w.move rules options pool.shared).2 :: after⟩ := by
  cases hw : pool.workers[index]? with
  | none => exact .inl (by simp only [move, hw])
  | some w =>
      obtain ⟨hindex, hget⟩ := List.getElem?_eq_some_iff.mp hw
      refine .inr ⟨pool.workers.take index, w, pool.workers.drop (index + 1), ?_, ?_, ?_⟩
      · rw [← hget, List.getElem_cons_drop, List.take_append_drop]
      · simp only [List.length_take]
        omega
      · simp only [move, hw]
        rw [List.set_eq_take_append_cons_drop, if_pos hindex]

def Apart (pool : Pool) : Prop := (pool.workers.map (·.path)).Pairwise pool.shared.tree.Apart

theorem apart_move (h : pool.Apart) (index : Nat) : (pool.move rules options index).Apart := by
  rcases move_cases rules options pool index with heq | ⟨before, w, after, hworkers, _, heq⟩
  · rwa [heq]
  · rw [Apart, hworkers] at h
    rw [heq, Apart]
    simpa using h

def finishFrom (rules : List Rule) (options : LintOptions) (s : Shared) :
    List Worker → Shared × List Worker
  | [] => (s, [])
  | w :: workers =>
    let (s, w) := w.complete rules options s
    let (s, workers) := finishFrom rules options s workers
    (s, w :: workers)

theorem finishFrom_move {s : Shared} {before after : List Worker} {w : Worker}
    (h : ((before ++ w :: after).map (·.path)).Pairwise s.tree.Apart) :
    finishFrom rules options (w.move rules options s).1
        (before ++ (w.move rules options s).2 :: after) =
      finishFrom rules options s (before ++ w :: after) := by
  induction before generalizing s with
  | nil => simp only [List.nil_append, finishFrom, Worker.complete_move]
  | cons v before ih =>
      obtain ⟨hfirst, hrest⟩ := List.pairwise_cons.mp h
      have hvw : s.tree.Apart v.path w.path := hfirst _ (by simp)
      -- the step of `w` can be taken behind the whole work of `v`
      obtain ⟨hw, hv⟩ := Worker.moves_move_comm rules options hvw 4
      have hfinish := @ih (v.complete rules options s).1 (by rwa [Worker.apart_complete])
      simp only [List.cons_append, finishFrom, Worker.complete] at hfinish ⊢
      rw [hv, ← hw, hfinish]

def finish (rules : List Rule) (options : LintOptions) (pool : Pool) : Shared × List Worker :=
  finishFrom rules options pool.shared pool.workers

/-- No step changes what the pool comes to. -/
theorem finish_move (h : pool.Apart) (index : Nat) :
    (pool.move rules options index).finish rules options = pool.finish rules options := by
  rcases move_cases rules options pool index with heq | ⟨before, w, after, hworkers, _, heq⟩
  · rw [heq]
  · rw [Apart, hworkers] at h
    simp only [finish, heq, hworkers, finishFrom_move h]

theorem finish_run (h : pool.Apart) (schedule : List Nat) :
    (pool.run rules options schedule).finish rules options = pool.finish rules options := by
  induction schedule generalizing pool with
  | nil => rfl
  | cons index schedule ih => exact (ih (apart_move h index)).trans (finish_move h index)

theorem finishFrom_of_finished {s : Shared} {workers : List Worker}
    (h : ∀ w ∈ workers, ∃ outcome, w.stage = .done outcome) :
    finishFrom rules options s workers = (s, workers) := by
  induction workers with
  | nil => rfl
  | cons w workers ih =>
      have hw := Worker.remaining_eq_zero_iff.mpr (h w (by simp))
      have hworkers := ih fun v hv => h v (List.mem_cons_of_mem w hv)
      simp only [finishFrom, Worker.complete, Worker.moves_of_remaining hw, hworkers]

theorem finishFrom_start (rules : List Rule) (options : LintOptions) (s : Shared)
    (files : List String) :
    let after := finishFrom rules options s (files.map (⟨·, .waiting⟩))
    let linted := s.tree.lintFiles rules options files
    after.1 = ⟨linted.2, s.correctedCount +
        linted.1.foldr (fun outcome count => outcome.correctedCount + count) 0⟩ ∧
      after.2.filterMap (·.outcome?) = linted.1 ∧ after.2.length = files.length := by
  induction files generalizing s with
  | nil => exact ⟨rfl, rfl, rfl⟩
  | cons path files ih =>
      have hfirst : Worker.complete rules options s ⟨path, .waiting⟩ = _ :=
        Worker.complete_waiting s path
      obtain ⟨hshared, houtcomes, hlength⟩ :=
        ih (Worker.complete rules options s ⟨path, .waiting⟩).1
      simp only [hfirst] at hshared houtcomes hlength
      simp only [List.map_cons, finishFrom, hfirst, FileTree.lintFiles]
      refine ⟨?_, ?_, ?_⟩
      · rw [hshared, List.foldr_cons, Nat.add_assoc]
      · rw [List.filterMap_cons, houtcomes]
        rfl
      · rw [List.length_cons, hlength, List.length_cons]

theorem result_run {tree : FileTree} {files : List String} (hapart : files.Pairwise tree.Apart)
    {schedule : List Nat} (h : ((start tree files).run rules options schedule).Finished) :
    (((start tree files).run rules options schedule).result,
      ((start tree files).run rules options schedule).shared.tree) =
        tree.lint rules options files := by
  have hstart : (start tree files).Apart := by
    simpa [Apart, start, Function.comp_def] using hapart
  have hfinish : ((start tree files).run rules options schedule).finish rules options =
      finishFrom rules options ⟨tree, 0⟩ (files.map (⟨·, .waiting⟩)) := finish_run hstart schedule
  rw [finish, finishFrom_of_finished h] at hfinish
  obtain ⟨hshared, houtcomes, hlength⟩ := finishFrom_start rules options ⟨tree, 0⟩ files
  rw [← hfinish] at hshared houtcomes hlength
  simp only [Nat.zero_add] at hshared
  simp only [result, outcomes, houtcomes, hlength, hshared, FileTree.lint]

/-! ## Enough steps -/

theorem getElem?_move {index : Nat} {w : Worker} (h : pool.workers[index]? = some w)
    (first : Nat) :
    (pool.move rules options first).workers[index]? =
      some (if first = index then (w.move rules options pool.shared).2 else w) := by
  by_cases hfirst : first = index
  · subst hfirst
    obtain ⟨hindex, _⟩ := List.getElem?_eq_some_iff.mp h
    simp only [move, h, List.getElem?_set_self hindex, if_true]
  · cases hw : pool.workers[first]? with
    | none => simp [move, hw, h, hfirst]
    | some v => simp [move, hw, h, hfirst]

theorem remaining_run (schedule : List Nat) {index : Nat} {w : Worker}
    (h : pool.workers[index]? = some w) :
    ∃ w', (pool.run rules options schedule).workers[index]? = some w' ∧
      w'.remaining ≤ w.remaining - schedule.count index := by
  induction schedule generalizing pool w with
  | nil => exact ⟨w, h, Nat.le_refl _⟩
  | cons first schedule ih =>
      obtain ⟨w', hw', hle⟩ := ih (getElem?_move h first)
      refine ⟨w', hw', ?_⟩
      rw [List.count_cons]
      by_cases hfirst : first = index
      · have hmove : (w.move rules options pool.shared).2.remaining ≤ w.remaining - 1 :=
          Worker.remaining_move pool.shared w
        simp only [hfirst, if_true, beq_self_eq_true] at hle ⊢
        omega
      · simpa [hfirst] using hle

theorem length_run (schedule : List Nat) :
    (pool.run rules options schedule).workers.length = pool.workers.length := by
  induction schedule generalizing pool with
  | nil => rfl
  | cons first schedule ih =>
      refine ih.trans ?_
      rcases move_cases rules options pool first with heq | ⟨_, _, _, hworkers, _, heq⟩
      · rw [heq]
      · simp [heq, hworkers]

theorem finished_run (tree : FileTree) {files : List String} {schedule : List Nat}
    (h : ∀ index < files.length, 4 ≤ schedule.count index) :
    ((start tree files).run rules options schedule).Finished := by
  intro w hw
  obtain ⟨index, hindex, hget⟩ := List.getElem_of_mem hw
  have hlength : index < files.length := by simpa [length_run, start] using hindex
  have hstart : (start tree files).workers[index]? = some ⟨files[index], .waiting⟩ := by
    simp [start, hlength]
  obtain ⟨w', hw', hle⟩ := remaining_run schedule hstart
  rw [List.getElem?_eq_getElem hindex, hget] at hw'
  obtain rfl := Option.some.inj hw'
  have hfour : (⟨files[index], .waiting⟩ : Worker).remaining = 4 := rfl
  have hcount := h index hlength
  exact Worker.remaining_eq_zero_iff.mp (by omega)

end Pool

/-! ## Orders of the files -/

namespace FileTree

variable {tree : FileTree} {rules : List Rule} {options : LintOptions} {files files' : List String}

theorem lintFiles_tree_of_perm (hperm : files'.Perm files) (hapart : files.Pairwise tree.Apart) :
    (tree.lintFiles rules options files').2 = (tree.lintFiles rules options files).2 := by
  replace hapart := hapart.perm hperm.symm fun {p q} h => Apart.symm h
  induction hperm generalizing tree with
  | nil => rfl
  | cons path _ ih =>
      obtain ⟨_, hrest⟩ := List.pairwise_cons.mp hapart
      simp only [lintFiles]
      exact @ih (tree.lintFile rules options path).2 (by rwa [apart_lintFile])
  | swap p q files =>
      obtain ⟨hq, _⟩ := List.pairwise_cons.mp hapart
      simp only [lintFiles, (hq p (by simp)).lintFile_comm]
  | trans hfirst _ ih ih' =>
      exact (ih hapart).trans (ih' (hapart.perm hfirst fun {p q} h => Apart.symm h))

theorem lint_of_perm (hperm : files'.Perm files) (hapart : files.Pairwise tree.Apart) :
    (tree.lint rules options files').1.diagnostics = (tree.lint rules options files).1.diagnostics ∧
      (tree.lint rules options files').1.correctedCount =
        (tree.lint rules options files).1.correctedCount ∧
      (tree.lint rules options files').1.skipped.Perm (tree.lint rules options files).1.skipped ∧
      (tree.lint rules options files').2 = (tree.lint rules options files).2 := by
  have hapart' := hapart.perm hperm.symm fun {p q} h => Apart.symm h
  have houtcomes := hperm.map fun path => (tree.lintFile rules options path).1
  refine ⟨?_, ?_, ?_, lintFiles_tree_of_perm hperm hapart⟩
  · simp only [lint, lintFiles_outcomes hapart, lintFiles_outcomes hapart', List.flatMap_map]
    refine Diagnostic.sort_flatMap_of_perm hperm fun path d hd => ?_
    rw [lintFile_eq] at hd
    exact (path_of_lintHeld (tree.read path) d hd).1
  · simp only [lint, lintFiles_outcomes hapart, lintFiles_outcomes hapart']
    refine houtcomes.foldr_eq' (fun x _ y _ count => ?_) 0
    exact Nat.add_left_comm _ _ _
  · simp only [lint, lintFiles_outcomes hapart, lintFiles_outcomes hapart']
    exact houtcomes.filterMap _

end FileTree

namespace Pool

/-- Every schedule with enough steps comes to an end, each that does has the result of
linting the files one after another, and neither the schedule nor the order in which the
files are listed counts for more than the order of those that are skipped. -/
theorem finished_runs_agree {tree : FileTree} {files files' : List String}
    (hapart : files.Pairwise tree.Apart) (hperm : files'.Perm files) (rules : List Rule)
    (options : LintOptions) :
    (∀ schedule,
      let pool := (start tree files).run rules options schedule
      ((∀ index < files.length, 4 ≤ schedule.count index) → pool.Finished) ∧
        (pool.Finished → (pool.result, pool.shared.tree) = tree.lint rules options files)) ∧
      ∀ schedule schedule',
        let pool := (start tree files).run rules options schedule
        let pool' := (start tree files').run rules options schedule'
        pool.Finished → pool'.Finished →
          pool'.result.diagnostics = pool.result.diagnostics ∧
            pool'.result.correctedCount = pool.result.correctedCount ∧
            pool'.result.skipped.Perm pool.result.skipped ∧
            pool'.shared.tree = pool.shared.tree := by
  refine ⟨fun schedule => ⟨finished_run tree, result_run hapart⟩, ?_⟩
  intro schedule schedule' pool pool' h h'
  have hapart' := hapart.perm hperm.symm fun {p q} h => FileTree.Apart.symm h
  obtain ⟨hresult, htree⟩ := Prod.mk.inj (result_run hapart h)
  obtain ⟨hresult', htree'⟩ := Prod.mk.inj (result_run hapart' h')
  simp only [pool, pool', hresult, htree, hresult', htree']
  exact FileTree.lint_of_perm hperm hapart

/-- Two workers that take turns, and the same two one after the other.  One of the files
cannot be written: it stays as it is, and its match does not count as corrected. -/
theorem finished_runs_agree_of_two :
    let rule : RuleConfig := { name := "call", pattern := "f(:[x])", rewrite := some "g(:[x])" }
    let content := utf8Bytes "f(1)\n".toList
    let tree : FileTree := {
      workingDirectory := ["w"]
      files := [(["w", "a.go"], content), (["w", "b.go"], content)]
      faults := [(["w", "b.go"], { opening := some .denied })] }
    ∃ rules pool pool', Rule.compileAll [rule] = .ok rules ∧
      (start tree ["a.go", "b.go"]).run rules ⟨false, true⟩ [0, 1, 1, 0, 1, 0, 0, 1] = pool ∧
      (start tree ["b.go", "a.go"]).run rules ⟨false, true⟩ [0, 0, 0, 0, 1, 1, 1, 1] = pool' ∧
      pool.Finished ∧ pool'.Finished ∧
      pool.shared.tree.read "a.go" = .ok (utf8Bytes "g(1)\n".toList) ∧
      pool.shared.tree.read "b.go" = .ok content ∧
      pool.result.correctedCount = 1 ∧
      pool.result.logs = [⟨.error,
        "failed to write corrected file b.go: Permission denied (os error 13)"⟩] ∧
      pool'.result.diagnostics = pool.result.diagnostics ∧
      pool'.result.correctedCount = pool.result.correctedCount ∧
      pool'.result.skipped.Perm pool.result.skipped ∧
      pool'.shared.tree = pool.shared.tree := by
  intro rule content tree
  have hlinted : (do
        let rules ← (Rule.compileAll [rule]).toOption
        let linted ← (lintSource ⟨"a.go", content⟩ rules ⟨false, true⟩).toOption
        let linted' ← (lintSource ⟨"b.go", content⟩ rules ⟨false, true⟩).toOption
        return [linted, linted'].map fun linted =>
          (linted.fixed, (linted.diagnostics.filter (·.corrected)).length, linted.logs)) =
      some [(some (utf8Bytes "g(1)\n".toList), 1, []),
        (some (utf8Bytes "g(1)\n".toList), 1, [])] := by
    decide +kernel
  obtain ⟨rules, hrules, hlinted⟩ := Option.bind_eq_some_iff.mp hlinted
  obtain ⟨linted, linted', ha, hb, hlinted⟩ := exists_ok_of_bind_toOption hlinted
  simp only [List.map_cons, List.map_nil, List.cons.injEq, and_true, Prod.mk.injEq] at hlinted
  obtain ⟨⟨hfixed, hcount, hlogs⟩, hfixed', _, hlogs'⟩ := hlinted
  have hplaces : tree.place? "a.go" = .ok ["w", "a.go"] ∧
      tree.place? "b.go" = .ok ["w", "b.go"] := by
    constructor <;> exact FileTree.place?_of_follow (by decide +kernel) (by decide +kernel)
  have hreadA : tree.read "a.go" = .ok content :=
    FileTree.read_eq_ok_iff.mpr ⟨_, hplaces.1, rfl, rfl⟩
  have hreadB : tree.read "b.go" = .ok content :=
    FileTree.read_eq_ok_iff.mpr ⟨_, hplaces.2, rfl, rfl⟩
  have hattemptA : ∀ fixed, tree.attempt "a.go" fixed = (none, some fixed) := by
    intro fixed
    rw [FileTree.attempt, FileTree.filePlace, hplaces.1]
    rfl
  have hattemptB : ∀ fixed, tree.attempt "b.go" fixed = (some .denied, none) := by
    intro fixed
    rw [FileTree.attempt, FileTree.filePlace, hplaces.2]
    rfl
  have hapart : ["a.go", "b.go"].Pairwise tree.Apart := by simp [FileTree.Apart, hplaces]
  have hperm : ["b.go", "a.go"].Perm ["a.go", "b.go"] := by decide
  obtain ⟨hruns, hagree⟩ := finished_runs_agree hapart hperm rules ⟨false, true⟩
  obtain ⟨hfinished, hlint⟩ := hruns [0, 1, 1, 0, 1, 0, 0, 1]
  have hagree := hagree [0, 1, 1, 0, 1, 0, 0, 1] [0, 0, 0, 0, 1, 1, 1, 1]
  have hfinished' : ((start tree ["b.go", "a.go"]).run rules ⟨false, true⟩
      [0, 0, 0, 0, 1, 1, 1, 1]).Finished := finished_run tree (by decide)
  generalize hpool : (start tree ["a.go", "b.go"]).run rules ⟨false, true⟩
    [0, 1, 1, 0, 1, 0, 0, 1] = pool at hfinished hlint hagree
  generalize hpool' : (start tree ["b.go", "a.go"]).run rules ⟨false, true⟩
    [0, 0, 0, 0, 1, 1, 1, 1] = pool' at hfinished' hagree
  have hfinished := hfinished (by decide)
  obtain ⟨hresult, htree⟩ := Prod.mk.inj (hlint hfinished)
  have houtcomes : (tree.lintFiles rules ⟨false, true⟩ ["a.go", "b.go"]).1 =
      [.linted linted.diagnostics 1 [],
        .unwritten "b.go" linted' .denied] := by
    rw [FileTree.lintFiles_outcomes hapart]
    simp [FileTree.lintFile_eq, lintHeld, hreadA, hreadB, ha, hb, hfixed, hfixed', hattemptA,
      hattemptB, hcount, hlogs]
  refine ⟨rules, pool, pool', eq_ok_of_toOption hrules, hpool, hpool', hfinished, hfinished',
    ?_, ?_, ?_, ?_, hagree hfinished hfinished'⟩
  · rw [htree]
    refine (FileTree.read_lintFiles hapart (by simp) hreadA).trans ?_
    simp [lintHeld, ha, hfixed, hattemptA]
  · rw [htree]
    refine (FileTree.read_lintFiles hapart (by simp) hreadB).trans ?_
    simp [lintHeld, hb, hfixed', hattemptB]
  · rw [hresult]
    change (tree.lintFiles rules ⟨false, true⟩ ["a.go", "b.go"]).1.foldr
      (fun outcome count => outcome.correctedCount + count) 0 = 1
    rw [houtcomes]
    rfl
  · rw [hresult]
    change (tree.lintFiles rules ⟨false, true⟩ ["a.go", "b.go"]).1.flatMap (·.logs) = _
    rw [houtcomes]
    simp only [List.flatMap_cons, FileOutcome.logs, FileOutcome.unwritten, hlogs']
    rfl

end Pool

end Stencil
