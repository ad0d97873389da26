import Stencil.Match.Program

/-!
# Patterns with other holes

A function on holes leaves the texts and blocks of a pattern as they are.  In its
program, too, it changes the holes alone.
-/

namespace Stencil

def Step.mapHole (f : Hole → Hole) : Step → Step
  | .hole h offset => .hole (f h) offset
  | step => step

def Instr.mapHole (f : Hole → Hole) : Instr → Instr
  | .hole h => .hole (f h)
  | instr => instr

theorem Step.instr_mapHole (f : Hole → Hole) (step : Step) :
    (step.mapHole f).instr = step.instr.mapHole f := by
  cases step <;> rfl

namespace Pattern

variable (f : Hole → Hole) (p : Pattern)

theorem size_mapHoles : (p.mapHoles f).size = p.size := by
  induction p with
  | nil => rfl
  | hole h offset rest ih => simp [mapHoles, size, ih]
  | text content offset rest ih => simp [mapHoles, size, ih]
  | block offset body rest _ ih => simp [mapHoles, size, ih]

theorem steps_mapHoles : (p.mapHoles f).steps = p.steps.map (Step.mapHole f) := by
  induction p with
  | nil => rfl
  | hole h offset rest ih => simp [mapHoles, steps, Step.mapHole, ih]
  | text content offset rest ih => simp [mapHoles, steps, Step.mapHole, ih]
  | block offset body rest ihBody ihRest =>
      simp [mapHoles, steps, Step.mapHole, size_mapHoles, ihBody, ihRest]

theorem program_mapHoles : (p.mapHoles f).program = p.program.map (Instr.mapHole f) := by
  unfold program
  rw [steps_mapHoles, List.map_map, List.map_map]
  exact List.map_congr_left fun step _ => step.instr_mapHole f

variable {f p}

theorem mem_holes_of_mem_program {h : Hole} (hmem : .hole h ∈ p.program) :
    h ∈ p.holes.map (·.1) := by
  unfold program at hmem
  induction p with
  | nil => simp [steps] at hmem
  | hole h' offset rest ih =>
      simp only [steps, List.map_cons, Step.instr, List.mem_cons, Instr.hole.injEq] at hmem
      rw [holes, List.map_cons, List.mem_cons]
      exact hmem.imp_right ih
  | text content offset rest ih =>
      simp only [steps, List.map_cons, Step.instr, List.mem_cons, reduceCtorEq, false_or] at hmem
      exact ih hmem
  | block offset body rest ihBody ihRest =>
      simp only [steps, List.map_cons, List.map_append, List.cons_append, Step.instr,
        List.mem_cons, List.mem_append, reduceCtorEq, false_or] at hmem
      rw [holes, List.map_append, List.mem_append]
      exact hmem.imp ihBody ihRest

theorem mem_holeNames_of_mem_program {h : Hole} (hmem : .hole h ∈ p.program) :
    h.name ∈ p.holeNames := by
  obtain ⟨entry, hentry, rfl⟩ := List.mem_map.mp (mem_holes_of_mem_program hmem)
  rw [holeNames, List.mem_eraseDups]
  exact List.mem_map_of_mem hentry

end Pattern

end Stencil
