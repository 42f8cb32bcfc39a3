import SmallC.Source.Buffer
import SmallC.Source.Position

/-!
# Problems and the log

A problem is one reported error. The log is everything reported so far together with the buffers
that positions refer to; both lists only grow, and a buffer's number is its place in the list.
-/
namespace SmallC

/-- The coarse class that a problem is counted under. -/
inductive ProblemKind where
  | lexical
  | syntactic
  | semantic
  | io
  deriving DecidableEq

namespace ProblemKind

def name : ProblemKind → String
  | .lexical => "Lexical"
  | .syntactic => "Syntax"
  | .semantic => "Semantic"
  | .io => "Io"

def title : ProblemKind → String
  | .lexical => "Lexical error"
  | .syntactic => "Syntax error"
  | .semantic => "Semantic error"
  | .io => "IO error"

end ProblemKind

inductive Problem where
  | lexical (message : String) (pos : Position)
  | syntactic (message : String) (pos : Position)
  | semantic (message : String) (pos : Position)
  | generation (message : String)
  | io (message : String)
  deriving DecidableEq

namespace Problem

def kind : Problem → ProblemKind
  | .lexical _ _ => .lexical
  | .syntactic _ _ => .syntactic
  | .semantic _ _ => .semantic
  | .generation _ => .semantic
  | .io _ => .io

def message : Problem → String
  | .lexical message _ => message
  | .syntactic message _ => message
  | .semantic message _ => message
  | .generation message => message
  | .io message => message

def position? : Problem → Option Position
  | .lexical _ pos => some pos
  | .syntactic _ pos => some pos
  | .semantic _ pos => some pos
  | .generation _ => none
  | .io _ => none

/-- The message with the class of the problem in front. -/
def describe : Problem → String
  | .lexical message _ => "lexical error: " ++ message
  | .syntactic message _ => "syntax error: " ++ message
  | .semantic message _ => "semantic error: " ++ message
  | .generation message => "code generation error: " ++ message
  | .io message => "IO error: " ++ message

end Problem

structure Log where
  files : List SourceFile := []
  problems : List Problem := []
  deriving DecidableEq

namespace Log

def report (l : Log) (problems : List Problem) : Log :=
  { l with problems := l.problems ++ problems }

/-- Registers a buffer; its number is the number of buffers before. -/
def register (l : Log) (file : SourceFile) : Log :=
  { l with files := l.files ++ [file] }

def errorCount (l : Log) : Nat :=
  l.problems.length

def countOf (l : Log) (kind : ProblemKind) : Nat :=
  (l.problems.filter (·.kind == kind)).length

end Log

end SmallC
