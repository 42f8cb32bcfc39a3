import Mathlib
import SmallC.Proofs.Lowering.Parallel

/-!
# Lowering carries positions along

The code of a unit does not depend on the positions in it; its faults stand where its nodes stand. The lowering
of a relocated unit is the lowering of the unit with the faults moved.
-/
namespace SmallC.Lowering

open Assembly

variable {φ : Position → Position}

theorem Fault.message_relocate (f : Fault) : (f.relocate φ).message = f.message := by
  cases f <;> rfl

/-- The same with its faults moved. -/
def Emission.relocate {α : Type} (φ : Position → Position) (e : Emission α) : Emission α :=
  { e with
    result := e.result.mapError (Fault.relocate φ)
    faults := e.faults.map (Fault.relocate φ) }

theorem functionBody_relocate (f : Function) (l : Labels) :
    functionBody ({} : Slots) (f.relocate φ) l = (functionBody ({} : Slots) f l).relocate φ := by
  let c : Change := { move := φ }
  have hcode : c.instruction = id := by
    rw [Change.instruction_displace rfl]
    exact funext Instruction.displace_id
  have hbody := (parallel_functionBody (c := c) (mirrors_eq rfl) rfl (Labels.renumber_zero f.name)).eq rfl l
  rw [hcode, List.map_id] at hbody
  exact hbody

theorem function_relocate (f : Function) (l : Labels) :
    function (f.relocate φ) l = (function f l).relocate φ := by
  unfold function functionOver
  rw [functionBody_relocate]
  rcases functionBody ({} : Slots) f l with ⟨fault | _, code, faults, labels⟩
  · -- the comment in place of the code does not tell where the fault is
    simp only [Emission.relocate, Except.mapError, Fault.message_relocate, List.map_append]
    rfl
  · rfl

theorem functions_relocate (fs : List Function) (l : Labels) :
    functions (fs.map (Function.relocate φ)) l = (functions fs l).relocate φ := by
  induction fs generalizing l with
  | nil => rfl
  | cons f fs ih =>
    rw [List.map_cons, functions_cons, functions_cons, function_relocate, Emission.relocate, Emission.relocate]
    dsimp only
    rw [ih, Emission.relocate, List.map_append]

namespace Program

def relocate (φ : Position → Position) (p : Program) : Program :=
  { p with faults := p.faults.map (Fault.relocate φ) }

theorem problems_relocate (p : Program) : (p.relocate φ).problems = p.problems.map (Problem.relocate φ) := by
  unfold problems relocate
  rw [List.map_map, List.map_map]
  exact List.map_congr_left fun f _ => f.problem_relocate

theorem hasFault_relocate (p : Program) : (p.relocate φ).hasFault = p.hasFault := by
  unfold hasFault relocate
  rw [List.isEmpty_map]

end Program

/-- The code of a unit does not depend on its positions, and its faults are moved with them. -/
theorem program_relocate (l : Labels) (unit : TranslationUnit) :
    program l (unit.relocate φ) = (program l unit).relocate φ := by
  unfold program TranslationUnit.relocate
  rw [functions_relocate]
  rfl

end SmallC.Lowering
