import SmallC.Grammar.Program
import SmallC.Lowering.Program
import SmallC.Preprocessor.Run
import SmallC.Problem.Display
import SmallC.Source.FileTree
import SmallC.Tree.Outline

/-!
# Compiling

A job is a source text with what the preprocessor is told about it. Compiling it extends a log that
earlier jobs may have written to. There is assembly only if nothing was reported; a unit that does not
read well is not lowered.
-/
namespace SmallC

/-- The language that is read. -/
structure Language where
  name : String
  extensions : List String

/-- The machine that code is made for. -/
structure Target where
  name : String
  description : String

def language : Language :=
  ⟨"c", [".c", ".h"]⟩

def target : Target :=
  ⟨"x86", "x86 32-bit (GNU as, AT&T syntax)"⟩

structure Job where
  path : Path
  source : String
  settings : Settings := {}
  /-- List the tokens before reading them. -/
  showTokens : Bool := false
  /-- Outline the tree once it has been read. -/
  showTree : Bool := false

namespace Job

/-- A text that does not come from a file. -/
def ofText (source : String) : Job :=
  { path := ⟨"<input>"⟩, source }

def preprocessor (job : Job) (load : Path → Option String) (files : List SourceFile) :
    Preprocessor :=
  .start load job.settings files job.path job.source

end Job

def Token.listing (t : Token) : String :=
  toString t.pos.line ++ ": " ++ t.kind.name ++ " " ++ Text.quoted t.lexeme ++ "\n"

def TokenStream.listing (s : TokenStream) : String :=
  "=== Tokens ===\n" ++ String.join (s.toList.map Token.listing) ++ "=== End Tokens ===\n\n"

/-- The tokens of a job as they are listed. A preprocessor of its own reads them, to which no files are known,
so nothing is registered or reported twice. -/
def Job.listing (job : Job) (load : Path → Option String) : String :=
  (job.preprocessor load []).run.1.listing

def TranslationUnit.listing (u : TranslationUnit) : String :=
  "=== AST ===\n" ++ u.print ++ "=== End AST ===\n\n"

/-- What came of a job. -/
structure Compilation where
  assembly : Option String
  /-- The problems that this job added to the log. -/
  problems : List Problem
  log : Log
  /-- Everything shown on the way, in order. -/
  shown : String
  /-- Every path that an include could have meant. -/
  tried : List Path

namespace Compilation

def errorCount (c : Compilation) : Nat :=
  c.problems.length

def succeeded (c : Compilation) : Bool :=
  c.assembly.isSome

end Compilation

def compile (style : Style) (load : Path → Option String) (log : Log) (job : Job) : Compilation :=
  let (stream, last) := (job.preprocessor load log.files).run
  let parsed := Grammar.parse stream
  let tokens := if job.showTokens then job.listing load else ""
  let noted := { log with files := last.files }.report parsed.problems
  let shown := tokens ++ Problem.renderAll style last.files parsed.problems
  if parsed.hasFault then ⟨none, parsed.problems, noted, shown, last.tried⟩
  else
    let tree := if job.showTree then parsed.unit.listing else ""
    let program := Lowering.program {} parsed.unit
    { assembly := if program.hasFault then none else some program.text
      problems := parsed.problems ++ program.problems
      log := noted.report program.problems
      shown := shown ++ tree ++ Problem.renderAll style last.files program.problems
      tried := last.tried }

/-- Compiles a file, and finds what it includes in the same way. -/
def compileFile (style : Style) (read : Path → Except FileError String) (log : Log) (path : Path)
    (settings : Settings) (showTokens showTree : Bool) : Except Problem Compilation :=
  match read path with
  | .error e => .error (.io e.message)
  | .ok source =>
    let job : Job := { path, source, settings, showTokens, showTree }
    .ok (compile style (fun p => (read p).toOption) log job)

end SmallC
