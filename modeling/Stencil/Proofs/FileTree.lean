import Stencil.FileTree

/-!
# Writing to files

Writing gives one file new content, none of it, or as much as there is room for.  Paths
lead where they led before, all that is at other places stays as it is, and writes to
different places can change places.
-/

namespace Stencil

namespace FileTree

variable {tree tree' : FileTree} {path : String} {place : List String} {content : List UInt8}

/-- A path leads where its segments do, unless there is something wrong with its text. -/
theorem place?_of_follow
    (hpath : path ≠ "" ∧ '\x00' ∉ path.toList ∧ path.utf8ByteSize ≤ longestPath)
    (hfollow : tree.follow (if path.startsWith "/" then [] else tree.workingDirectory)
      (Path.segments path) = .ok place) : tree.place? path = .ok place := by
  obtain ⟨hempty, hnul, hsize⟩ := hpath
  have hsome : path.isEmpty = false := by
    rw [Bool.eq_false_iff]
    exact fun h => hempty (String.isEmpty_iff.mp h)
  simp only [place?, String.contains_char_eq, hnul, hsome, Nat.not_lt.mpr hsize, hfollow,
    decide_false, Bool.false_eq_true, if_false]

@[simp] theorem workingDirectory_put (tree : FileTree) (place : List String)
    (content : List UInt8) : (tree.put place content).workingDirectory = tree.workingDirectory :=
  rfl

@[simp] theorem directories_put (tree : FileTree) (place : List String) (content : List UInt8) :
    (tree.put place content).directories = tree.directories :=
  rfl

@[simp] theorem faultsAt_put (tree : FileTree) (place : List String) (content : List UInt8) :
    (tree.put place content).faultsAt = tree.faultsAt :=
  rfl

theorem lookup_put (tree : FileTree) (place q : List String) (content : List UInt8) :
    (tree.put place content).files.lookup q =
      if q = place then (tree.files.lookup q).map fun _ => content else tree.files.lookup q := by
  unfold put
  induction tree.files with
  | nil => simp
  | cons file rest ih =>
      obtain ⟨name, old⟩ := file
      simp only [List.map_cons]
      by_cases hname : name = place
      · subst hname
        rw [if_pos rfl, List.lookup_cons, List.lookup_cons, ih]
        split <;> simp_all
      · rw [if_neg hname, List.lookup_cons, List.lookup_cons, ih]
        split <;> simp_all

theorem any_files_put (tree : FileTree) (place : List String) (content : List UInt8)
    (p : List String → Bool) :
    ((tree.put place content).files.any fun (file, _) => p file) =
      tree.files.any fun (file, _) => p file := by
  simp only [put, List.any_map]
  congr 1
  funext ⟨file, old⟩
  simp only [Function.comp_apply]
  split <;> rfl

theorem put_comm (tree : FileTree) {p q : List String} (hne : p ≠ q) (c d : List UInt8) :
    (tree.put p c).put q d = (tree.put q d).put p c := by
  simp only [put, List.map_map]
  congr 2
  funext ⟨file, old⟩
  simp only [Function.comp_apply]
  by_cases hp : file = p <;> by_cases hq : file = q <;> simp_all

theorem put_put (tree : FileTree) (place : List String) (c d : List UInt8) :
    (tree.put place c).put place d = tree.put place d := by
  simp only [put, List.map_map]
  congr 2
  funext ⟨file, old⟩
  simp only [Function.comp_apply]
  by_cases hfile : file = place <;> simp [hfile]

/-! ## Entries -/

theorem entry_put (tree : FileTree) (place q : List String) (content : List UInt8) :
    (tree.put place content).entry q =
      match tree.entry q with
      | .ok (.file old) => .ok (.file (if q = place then content else old))
      | found => found := by
  unfold entry
  rw [lookup_put, workingDirectory_put, directories_put,
    any_files_put tree place content (q.isPrefixOf ·),
    any_files_put tree place content (·.isPrefixOf q)]
  cases tree.files.lookup q with
  | none =>
      simp only [Option.map_none, ite_self]
      split
      · rfl
      · split <;> rfl
  | some old => by_cases hq : q = place <;> simp [hq]

theorem entry_put_of_ne (tree : FileTree) {place q : List String} (hne : q ≠ place)
    (content : List UInt8) : (tree.put place content).entry q = tree.entry q := by
  rw [entry_put]
  split
  · rename_i old hold
    rw [if_neg hne, hold]
  · rfl

/-! ## Paths -/

theorem follow_put (tree : FileTree) (place : List String) (content : List UInt8)
    (start segments : List String) :
    (tree.put place content).follow start segments = tree.follow start segments := by
  induction segments generalizing start with
  | nil => rfl
  | cons segment rest ih =>
      simp only [follow, entry_put, ih]
      cases tree.entry start with
      | error e => rfl
      | ok found => cases found <;> rfl

@[simp] theorem place?_put (tree : FileTree) (place : List String) (content : List UInt8)
    (path : String) : (tree.put place content).place? path = tree.place? path := by
  simp only [place?, follow_put, workingDirectory_put]

@[simp] theorem filePlace_put (tree : FileTree) (place : List String) (content : List UInt8)
    (path : String) : (tree.put place content).filePlace path = tree.filePlace path := by
  unfold filePlace
  rw [place?_put]
  cases tree.place? path with
  | error e => rfl
  | ok found =>
      simp only [entry_put]
      cases tree.entry found with
      | error e => rfl
      | ok entry => cases entry <;> rfl

theorem place?_of_filePlace (h : tree.filePlace path = .ok place) :
    tree.place? path = .ok place := by
  unfold filePlace at h
  split at h
  · cases h
  · rename_i hplace
    split at h
    · rw [hplace, h]
    · cases h
    · cases h

theorem read_eq_ok_iff :
    tree.read path = .ok content ↔
      ∃ place, tree.place? path = .ok place ∧ tree.entry place = .ok (.file content) ∧
        (tree.faultsAt place).reading = none := by
  unfold read
  cases tree.place? path with
  | error e => simp
  | ok place =>
      cases hentry : tree.entry place with
      | error e => simp [hentry]
      | ok found =>
          cases found with
          | directory => simp [hentry]
          | file held => cases hreading : (tree.faultsAt place).reading <;> simp [hentry, hreading]

/-- What is read through a path is up to where it leads and to what is there. -/
theorem read_congr (hplace : tree'.place? path = tree.place? path)
    (hfaults : tree'.faultsAt = tree.faultsAt)
    (hentry : ∀ place, tree.place? path = .ok place → tree'.entry place = tree.entry place) :
    tree'.read path = tree.read path := by
  unfold read
  rw [hplace, hfaults]
  cases hpath : tree.place? path with
  | error e => rfl
  | ok place => simp only [hentry place hpath]

/-! ## Overwriting -/

def overwrite (tree : FileTree) (path : String) (content : List UInt8) : FileTree :=
  match tree.place? path with
  | .ok place => tree.put place content
  | .error _ => tree

@[simp] theorem place?_overwrite (tree : FileTree) (path : String) (content : List UInt8)
    (q : String) : (tree.overwrite path content).place? q = tree.place? q := by
  unfold overwrite
  split
  · exact place?_put tree _ content q
  · rfl

@[simp] theorem faultsAt_overwrite (tree : FileTree) (path : String) (content : List UInt8) :
    (tree.overwrite path content).faultsAt = tree.faultsAt := by
  unfold overwrite
  split <;> rfl

@[simp] theorem filePlace_overwrite (tree : FileTree) (path : String) (content : List UInt8)
    (q : String) : (tree.overwrite path content).filePlace q = tree.filePlace q := by
  unfold overwrite
  split
  · exact filePlace_put tree _ content q
  · rfl

theorem entry_overwrite_of_ne {place : List String} (hne : tree.place? path ≠ .ok place)
    (content : List UInt8) : (tree.overwrite path content).entry place = tree.entry place := by
  unfold overwrite
  split
  · rename_i written hwritten
    refine entry_put_of_ne tree ?_ content
    rintro rfl
    exact hne hwritten
  · rfl

theorem read_overwrite_self {old : List UInt8} (hread : tree.read path = .ok old)
    (content : List UInt8) : (tree.overwrite path content).read path = .ok content := by
  obtain ⟨place, hplace, hentry, hreading⟩ := read_eq_ok_iff.mp hread
  have hwritten : tree.overwrite path content = tree.put place content := by
    simp only [overwrite, hplace]
  refine read_eq_ok_iff.mpr ⟨place, by rw [hwritten, place?_put, hplace], ?_, ?_⟩
  · rw [hwritten, entry_put, hentry]
    simp
  · rw [hwritten, faultsAt_put, hreading]

theorem overwrite_overwrite (tree : FileTree) (path : String) (c d : List UInt8) :
    (tree.overwrite path c).overwrite path d = tree.overwrite path d := by
  cases hplace : tree.place? path with
  | error e => simp only [overwrite, hplace]
  | ok place => simp only [overwrite, hplace, place?_put, put_put]

/-! ## Paths to different places -/

def Apart (tree : FileTree) (p q : String) : Prop :=
  ∀ place, tree.place? p = .ok place → tree.place? q ≠ .ok place

variable {p q : String}

theorem Apart.symm (h : tree.Apart p q) : tree.Apart q p :=
  fun place hq hp => h place hp hq

theorem apart_congr (h : ∀ q, tree'.place? q = tree.place? q) : tree'.Apart = tree.Apart := by
  funext p q
  simp only [Apart, h]

theorem Apart.read_overwrite (h : tree.Apart p q) (content : List UInt8) :
    (tree.overwrite p content).read q = tree.read q :=
  read_congr (place?_overwrite tree p content q) (faultsAt_overwrite tree p content)
    fun place hq => entry_overwrite_of_ne (h.symm place hq) content

theorem Apart.overwrite_comm (h : tree.Apart p q) (c d : List UInt8) :
    (tree.overwrite p c).overwrite q d = (tree.overwrite q d).overwrite p c := by
  cases hp : tree.place? p with
  | error e =>
      have hkept : ∀ tree' : FileTree, tree'.place? p = tree.place? p →
          tree'.overwrite p c = tree' := by
        intro tree' hplace
        simp only [overwrite, hplace, hp]
      rw [hkept tree rfl, hkept _ (place?_overwrite tree q d p)]
  | ok place =>
      cases hq : tree.place? q with
      | error e => simp only [overwrite, hp, hq, place?_put]
      | ok place' =>
          have hne : place ≠ place' := by
            rintro rfl
            exact h place hp hq
          simp only [overwrite, hp, hq, place?_put]
          exact put_comm tree hne c d

/-! ## Updates -/

def update (tree : FileTree) (path : String) (content : Option (List UInt8)) : FileTree :=
  content.elim tree (tree.overwrite path)

@[simp] theorem place?_update (tree : FileTree) (path : String) (content : Option (List UInt8))
    (q : String) : (tree.update path content).place? q = tree.place? q := by
  cases content with
  | none => rfl
  | some content => exact place?_overwrite tree path content q

@[simp] theorem faultsAt_update (tree : FileTree) (path : String)
    (content : Option (List UInt8)) : (tree.update path content).faultsAt = tree.faultsAt := by
  cases content with
  | none => rfl
  | some content => exact faultsAt_overwrite tree path content

@[simp] theorem filePlace_update (tree : FileTree) (path : String)
    (content : Option (List UInt8)) (q : String) :
    (tree.update path content).filePlace q = tree.filePlace q := by
  cases content with
  | none => rfl
  | some content => exact filePlace_overwrite tree path content q

theorem entry_update_of_ne {place : List String} (hne : tree.place? path ≠ .ok place)
    (content : Option (List UInt8)) :
    (tree.update path content).entry place = tree.entry place := by
  cases content with
  | none => rfl
  | some content => exact entry_overwrite_of_ne hne content

theorem read_update_self {old : List UInt8} (hread : tree.read path = .ok old)
    (content : Option (List UInt8)) :
    (tree.update path content).read path = .ok (content.getD old) := by
  cases content with
  | none => exact hread
  | some content => exact read_overwrite_self hread content

theorem Apart.read_update (h : tree.Apart p q) (content : Option (List UInt8)) :
    (tree.update p content).read q = tree.read q := by
  cases content with
  | none => rfl
  | some content => exact h.read_overwrite content

theorem Apart.update_comm (h : tree.Apart p q) (c d : Option (List UInt8)) :
    (tree.update p c).update q d = (tree.update q d).update p c := by
  cases c with
  | none => rfl
  | some c =>
      cases d with
      | none => rfl
      | some d => exact h.overwrite_comm c d

/-! ## Writes -/

/-- What a write to the file that a path leads to comes to: how it fails, and what the file
holds then unless it is left alone. -/
def attempt (tree : FileTree) (path : String) (content : List UInt8) :
    Option FileError × Option (List UInt8) :=
  match tree.filePlace path with
  | .error e => (some e, none)
  | .ok place =>
    match (tree.faultsAt place).opening with
    | some e => (some e, none)
    | none =>
      (((tree.faultsAt place).absorb content).1, some ((tree.faultsAt place).absorb content).2)

@[simp] theorem attempt_update (tree : FileTree) (p : String) (c : Option (List UInt8))
    (q : String) : (tree.update p c).attempt q = tree.attempt q := by
  funext content
  simp only [attempt, filePlace_update, faultsAt_update]

theorem overwrite_of_filePlace (h : tree.filePlace path = .ok place) (content : List UInt8) :
    tree.overwrite path content = tree.put place content := by
  simp only [overwrite, place?_of_filePlace h]

theorem clear_eq (tree : FileTree) (path : String) :
    tree.clear path = match tree.filePlace path with
      | .error e => .error e
      | .ok place =>
        match (tree.faultsAt place).opening with
        | none => .ok (tree.overwrite path [])
        | some e => .error e := by
  unfold clear
  cases hplace : tree.filePlace path with
  | error e => rfl
  | ok place =>
      cases hopening : (tree.faultsAt place).opening with
      | some e => simp only [hopening]
      | none => simp only [hopening, overwrite_of_filePlace hplace]

theorem fill_eq (tree : FileTree) (path : String) (content : List UInt8) :
    tree.fill path content = match tree.filePlace path with
      | .error e => (some e, tree)
      | .ok place =>
        (((tree.faultsAt place).absorb content).1,
          tree.overwrite path ((tree.faultsAt place).absorb content).2) := by
  unfold fill
  cases hplace : tree.filePlace path with
  | error e => rfl
  | ok place => simp only [overwrite_of_filePlace hplace]

theorem write_eq (tree : FileTree) (path : String) (content : List UInt8) :
    tree.write path content =
      ((tree.attempt path content).1, tree.update path (tree.attempt path content).2) := by
  rw [write, clear_eq, attempt]
  cases hplace : tree.filePlace path with
  | error e => rfl
  | ok place =>
      cases hopening : (tree.faultsAt place).opening with
      | some e => simp only [hopening, update, Option.elim_none]
      | none =>
          simp only [hopening, fill_eq, filePlace_overwrite, hplace, faultsAt_overwrite,
            overwrite_overwrite, update, Option.elim_some]

theorem absorb_of_success {faults : FileFaults} (h : (faults.absorb content).1 = none) :
    (faults.absorb content).2 = content := by
  unfold FileFaults.absorb at h ⊢
  cases hfilling : faults.filling with
  | none => rfl
  | some limit =>
      simp only [hfilling] at h ⊢
      split at h
      · cases h
      · rename_i hroom
        rw [if_neg hroom]

theorem attempt_of_write (h : (tree.write path content).1 = none) :
    tree.attempt path content = (none, some content) := by
  rw [write_eq] at h
  unfold attempt at h ⊢
  cases hplace : tree.filePlace path with
  | error e => simp [hplace] at h
  | ok place =>
      cases hopening : (tree.faultsAt place).opening with
      | some e => simp [hplace, hopening] at h
      | none =>
          simp only [hplace, hopening] at h ⊢
          rw [h, absorb_of_success h]

theorem write_of_faultless {old : List UInt8} (hread : tree.read path = .ok old)
    (hfaults : tree.faults = []) (content : List UInt8) : (tree.write path content).1 = none := by
  obtain ⟨place, hplace, hentry, _⟩ := read_eq_ok_iff.mp hread
  have hfile : tree.filePlace path = .ok place := by simp only [filePlace, hplace, hentry]
  have hnone : tree.faultsAt place = {} := by simp [faultsAt, hfaults]
  rw [write_eq, attempt]
  simp [hfile, hnone, FileFaults.absorb]

end FileTree

end Stencil
