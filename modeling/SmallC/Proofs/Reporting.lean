import SmallC.Compile
import SmallC.Proofs.Grammar.Moves

/-!
# Assembly and reports

Whether a job has assembly is decided by faults that the parts of the compiler keep track of on their
own, and problems are reported to a log. The two agree: a fault that is not reported always follows one
that is.
-/
namespace SmallC

theorem Lowering.Program.hasFault_eq_false_iff (p : Lowering.Program) :
    p.hasFault = false ↔ p.problems = [] := by
  unfold hasFault problems
  rw [Bool.not_eq_false', List.isEmpty_iff, List.map_eq_nil_iff]

/-- The log grows by the problems of the job. -/
theorem compile_log_problems (style : Style) (load : Path → Option String) (log : Log) (job : Job) :
    (compile style load log job).log.problems =
      log.problems ++ (compile style load log job).problems := by
  unfold compile
  dsimp only
  split
  · rfl
  · exact List.append_assoc ..

/-- There is assembly if and only if the job has no problems. -/
theorem compile_assembly_isSome (style : Style) (load : Path → Option String) (log : Log)
    (job : Job) :
    (compile style load log job).assembly.isSome = true ↔
      (compile style load log job).problems = [] := by
  unfold compile
  dsimp only
  have hparse := Grammar.hasFault_eq_false_iff (job.preprocessor load log.files).run.1
  split
  · next hfault =>
    have hproblems : (Grammar.parse (job.preprocessor load log.files).run.1).problems ≠ [] := by
      intro hnil
      rw [hparse.2 hnil] at hfault
      cases hfault
    exact ⟨(nomatch ·), fun h => absurd h hproblems⟩
  · next hnofault =>
    have hnil := hparse.1 (Bool.eq_false_iff.2 hnofault)
    dsimp only
    rw [hnil, List.nil_append, ← Lowering.Program.hasFault_eq_false_iff]
    split
    · next hfault =>
      rw [hfault]
      exact ⟨(nomatch ·), (nomatch ·)⟩
    · next hfault => exact ⟨fun _ => Bool.eq_false_iff.2 hfault, fun _ => rfl⟩

/-- Compiling has assembly if and only if the log did not grow; it grows by as many problems as are
counted, and what was in it stays in front. -/
theorem assembly_iff_nothing_reported (style : Style) (load : Path → Option String) (log : Log)
    (job : Job) :
    ((compile style load log job).assembly.isSome = true ↔
        (compile style load log job).log.problems = log.problems) ∧
      (compile style load log job).log.problems.length =
        log.problems.length + (compile style load log job).errorCount ∧
      log.problems <+: (compile style load log job).log.problems := by
  rw [compile_assembly_isSome, compile_log_problems]
  refine ⟨?_, ?_, List.prefix_append ..⟩
  · exact List.append_right_eq_self.symm
  · rw [List.length_append]
    rfl

end SmallC
