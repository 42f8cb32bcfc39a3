import SmallC.Compile
import SmallC.Proofs.Expansion.Renumbering
import SmallC.Proofs.Grammar.Relocation
import SmallC.Proofs.Lowering.Relocation
import SmallC.Proofs.Reporting

/-!
# Jobs that share a log

Many jobs can be compiled one after the other into one log. What comes of a job is decided by its tokens, and
those depend on the jobs before it only in the numbers of the buffers that they stand in. So every job comes to
what it comes to on its own, with its buffers renumbered. What is shown on the way takes no part in it.
-/
namespace SmallC

namespace TokenStream

/-- The problems with a stream, up to the first part of the compiler that finds any. -/
def problems (S : TokenStream) : List Problem :=
  let parsed := Grammar.parse S
  if parsed.hasFault then parsed.problems
  else parsed.problems ++ (Lowering.program {} parsed.unit).problems

/-- The assembly that a stream without faults is lowered to. -/
def assembly? (S : TokenStream) : Option String :=
  let parsed := Grammar.parse S
  let program := Lowering.program {} parsed.unit
  if parsed.hasFault || program.hasFault then none else some program.text

variable {φ : Position → Position} (S : TokenStream)

theorem problems_relocate : (S.relocate φ).problems = S.problems.map (Problem.relocate φ) := by
  unfold problems
  rw [Grammar.parse_relocate]
  dsimp only
  rw [Grammar.Parse.hasFault_relocate, Grammar.Parse.problems_relocate, Grammar.Parse.relocate,
    Lowering.program_relocate, Lowering.Program.problems_relocate]
  split
  · rfl
  · rw [List.map_append]

theorem assembly?_relocate : (S.relocate φ).assembly? = S.assembly? := by
  unfold assembly?
  rw [Grammar.parse_relocate]
  dsimp only
  rw [Grammar.Parse.hasFault_relocate, Grammar.Parse.relocate, Lowering.program_relocate,
    Lowering.Program.hasFault_relocate]
  rfl

end TokenStream

section

variable (style : Style) (load : Path → Option String) (log : Log) (job : Job)

theorem compile_problems :
    (compile style load log job).problems = (job.preprocessor load log.files).run.1.problems := by
  unfold compile TokenStream.problems
  dsimp only
  split <;> rfl

theorem compile_assembly :
    (compile style load log job).assembly = (job.preprocessor load log.files).run.1.assembly? := by
  unfold compile TokenStream.assembly?
  dsimp only
  split
  · next hfault => rw [hfault, Bool.true_or, if_pos rfl]
  · next hfault => rw [Bool.eq_false_iff.2 hfault, Bool.false_or]

theorem compile_files :
    (compile style load log job).log.files = (job.preprocessor load log.files).run.2.files := by
  unfold compile
  dsimp only
  split <;> rfl

end

/-- The preprocessor reads on from a log as it reads on its own, behind the buffers of the log. -/
theorem Job.run_preprocessor (job : Job) (load : Path → Option String) (files : List SourceFile) :
    (job.preprocessor load files).run =
      ((job.preprocessor load []).run.1.relocate (Position.shift files.length),
        (job.preprocessor load []).run.2.behind files) := by
  rw [← Preprocessor.run_behind]
  exact congrArg Preprocessor.run (Preprocessor.start_behind files load job.settings job.path job.source)

/-- A listing tells the line of a token but not its buffer. -/
theorem TokenStream.listing_shift (S : TokenStream) (n : Nat) :
    (S.relocate (Position.shift n)).listing = S.listing := by
  have htokens : (S.relocate (Position.shift n)).toList = S.toList.map (Token.relocate (Position.shift n)) := by
    simp [TokenStream.toList, TokenStream.relocate, Token.relocate, Token.endOfFile]
  have htoken : Token.listing ∘ Token.relocate (Position.shift n) = Token.listing := rfl
  rw [listing, htokens, List.map_map, htoken]
  rfl

/-- The listing is that of the tokens which are compiled, though these are read from a log. -/
theorem Job.listing_eq (job : Job) (load : Path → Option String) (files : List SourceFile) :
    job.listing load = (job.preprocessor load files).run.1.listing := by
  rw [job.run_preprocessor load files, TokenStream.listing_shift]
  rfl

/-- Listing the tokens shows those that are compiled in front of all else, and changes nothing but that. -/
theorem compile_showTokens (style : Style) (load : Path → Option String) (log : Log) (job : Job) :
    let quiet := compile style load log { job with showTokens := false }
    compile style load log { job with showTokens := true } =
      { quiet with shown := (job.preprocessor load log.files).run.1.listing ++ quiet.shown } := by
  intro quiet
  have hread : ∀ b, Job.preprocessor { job with showTokens := b } load log.files = job.preprocessor load log.files :=
    fun _ => rfl
  have hlisting : Job.listing { job with showTokens := true } load = _ := job.listing_eq load log.files
  unfold quiet compile
  simp only [hread, hlisting]
  split
  · rfl
  · simp only [String.append_assoc]
    rfl

/-- A job with the means to find what it includes. -/
structure Request where
  load : Path → Option String
  job : Job

namespace Request

/-- The request compiled into a log. -/
def compile (style : Style) (log : Log) (u : Request) : Compilation :=
  SmallC.compile style u.load log u.job

/-- The request compiled on its own, with its listings switched as told. -/
def alone (style : Style) (showTokens showTree : Bool) (u : Request) : Compilation :=
  SmallC.compile style u.load {} { u.job with showTokens, showTree }

end Request

/-- Compiles one request after the other; each finds the log that the ones before it left. -/
def compileAll (style : Style) (log : Log) : List Request → List Compilation
  | [] => []
  | u :: more => u.compile style log :: compileAll style (u.compile style log).log more

/-- The log that requests leave. -/
def logAfter (style : Style) (log : Log) (units : List Request) : Log :=
  units.foldl (fun log u => (u.compile style log).log) log

theorem compileAll_append (style : Style) (log : Log) (earlier later : List Request) :
    compileAll style log (earlier ++ later) =
      compileAll style log earlier ++ compileAll style (logAfter style log earlier) later := by
  induction earlier generalizing log with
  | nil => rfl
  | cons u earlier ih => exact congrArg (_ :: ·) (ih _)

theorem length_compileAll (style : Style) (log : Log) (units : List Request) :
    (compileAll style log units).length = units.length := by
  induction units generalizing log with
  | nil => rfl
  | cons u units ih => exact congrArg (· + 1) (ih _)

theorem getElem?_compileAll (style : Style) (log : Log) (earlier later : List Request) (u : Request) :
    (compileAll style log (earlier ++ u :: later))[earlier.length]? =
      some (u.compile style (logAfter style log earlier)) := by
  rw [compileAll_append, List.getElem?_append_right (Nat.le_of_eq (length_compileAll ..)),
    length_compileAll, Nat.sub_self]
  rfl

namespace Request

variable (style style' : Style) (log : Log) (u : Request) (showTokens showTree : Bool)

theorem compile_assembly_eq_alone :
    (u.compile style log).assembly = (u.alone style' showTokens showTree).assembly := by
  unfold compile alone
  rw [compile_assembly, compile_assembly, Job.run_preprocessor]
  exact TokenStream.assembly?_relocate _

theorem compile_problems_eq_alone :
    (u.compile style log).problems =
      (u.alone style' showTokens showTree).problems.map
        (Problem.relocate (Position.shift log.files.length)) := by
  unfold compile alone
  rw [compile_problems, compile_problems, Job.run_preprocessor]
  exact TokenStream.problems_relocate _

theorem compile_files_eq_alone :
    (u.compile style log).log.files =
      log.files ++ (u.alone style' showTokens showTree).log.files := by
  unfold compile alone
  rw [compile_files, compile_files, Job.run_preprocessor]
  rfl

end Request

theorem logAfter_files (style style' : Style) (log : Log) (units : List Request)
    (showTokens showTree : Bool) :
    (logAfter style log units).files =
      log.files ++ (units.map fun u => (u.alone style' showTokens showTree).log.files).flatten := by
  induction units generalizing log with
  | nil => exact (List.append_nil _).symm
  | cons u units ih =>
    refine (ih _).trans ?_
    rw [u.compile_files_eq_alone style style' log showTokens showTree, List.append_assoc]
    rfl

/-- A request that is compiled between others comes to what it comes to on its own, but for the numbers of
buffers, which count on from the files registered before. Its files and problems are added behind those. -/
theorem session_compiles_each_alone (style style' : Style) (log : Log) (earlier later : List Request)
    (u : Request) (showTokens showTree : Bool) :
    let before := logAfter style log earlier
    let alone := u.alone style' showTokens showTree
    ∃ c, (compileAll style log (earlier ++ u :: later))[earlier.length]? = some c ∧
      c.assembly = alone.assembly ∧ c.errorCount = alone.errorCount ∧
      c.problems = alone.problems.map (Problem.relocate (Position.shift before.files.length)) ∧
      c.log.problems = before.problems ++ c.problems ∧
      c.log.files = before.files ++ alone.log.files ∧
      before.files = log.files ++
        (earlier.map fun v => (v.alone style' showTokens showTree).log.files).flatten := by
  intro before alone
  have hproblems := u.compile_problems_eq_alone style style' before showTokens showTree
  refine ⟨_, getElem?_compileAll style log earlier later u,
    u.compile_assembly_eq_alone style style' before showTokens showTree, ?_, hproblems,
    compile_log_problems .., u.compile_files_eq_alone style style' before showTokens showTree,
    logAfter_files style style' log earlier showTokens showTree⟩
  unfold Compilation.errorCount
  rw [hproblems, List.length_map]

end SmallC
