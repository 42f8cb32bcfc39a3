import SmallC.Source.Position

/-!
# Syntax trees

What a program says, with the position of the token that each node stands for: the operator of an
operation, the first token of anything else.
-/
namespace SmallC

/-- Operators on two numbers that a compound assignment can be made of. -/
inductive ArithOp where
  | add
  | sub
  | mul
  | div
  | mod
  | bitAnd
  | bitOr
  | bitXor
  | shiftLeft
  | shiftRight
  deriving DecidableEq

inductive CompareOp where
  | eq
  | ne
  | lt
  | le
  | gt
  | ge
  deriving DecidableEq

inductive BinaryOp where
  | comma
  | arith (op : ArithOp)
  | compare (op : CompareOp)
  | logAnd
  | logOr
  deriving DecidableEq

inductive StepOp where
  | increment
  | decrement
  deriving DecidableEq

/-- Operators on one operand; a step is written before or after it. -/
inductive UnaryOp where
  | neg
  | bitNot
  | logNot
  | before (op : StepOp)
  | after (op : StepOp)
  deriving DecidableEq

inductive AssignOp where
  | plain
  | compound (op : ArithOp)
  deriving DecidableEq

namespace ArithOp

def spelling : ArithOp → String
  | add => "+"
  | sub => "-"
  | mul => "*"
  | div => "/"
  | mod => "%"
  | bitAnd => "&"
  | bitOr => "|"
  | bitXor => "^"
  | shiftLeft => "<<"
  | shiftRight => ">>"

end ArithOp

namespace CompareOp

def spelling : CompareOp → String
  | eq => "=="
  | ne => "!="
  | lt => "<"
  | le => "<="
  | gt => ">"
  | ge => ">="

end CompareOp

namespace BinaryOp

def spelling : BinaryOp → String
  | comma => ","
  | arith op => op.spelling
  | compare op => op.spelling
  | logAnd => "&&"
  | logOr => "||"

end BinaryOp

namespace StepOp

def spelling : StepOp → String
  | increment => "++"
  | decrement => "--"

end StepOp

namespace UnaryOp

def spelling : UnaryOp → String
  | neg => "-"
  | bitNot => "~"
  | logNot => "!"
  | before op => op.spelling
  | after op => op.spelling

/-- The operator changes its operand. -/
def isStep : UnaryOp → Bool
  | before _ | after _ => true
  | _ => false

/-- The operator is written after its operand. -/
def isAfter : UnaryOp → Bool
  | after _ => true
  | _ => false

end UnaryOp

namespace AssignOp

def spelling : AssignOp → String
  | plain => "="
  | compound op => op.spelling ++ "="

/-- What is done with the old value of the target. -/
def arith? : AssignOp → Option ArithOp
  | plain => none
  | compound op => some op

end AssignOp

inductive Expr where
  | number (digits : String) (pos : Position)
  | var (name : String) (pos : Position)
  | unary (op : UnaryOp) (operand : Expr) (pos : Position)
  | binary (op : BinaryOp) (left right : Expr) (pos : Position)
  | assign (op : AssignOp) (target value : Expr) (pos : Position)
  deriving DecidableEq

namespace Expr

def pos : Expr → Position
  | number _ pos => pos
  | var _ pos => pos
  | unary _ _ pos => pos
  | binary _ _ _ pos => pos
  | assign _ _ _ pos => pos

/-- The name of an expression that is just a variable. -/
def var? : Expr → Option String
  | var name _ => some name
  | _ => none

end Expr

structure TypeName where
  name : String
  pos : Position
  deriving DecidableEq

inductive Stmt where
  | block (body : List Stmt) (pos : Position)
  | returns (value : Expr) (pos : Position)
  | expr (value : Expr) (pos : Position)
  | declare (type : TypeName) (name : String) (init : Option Expr) (pos : Position)

structure Block where
  body : List Stmt
  pos : Position

structure Param where
  type : TypeName
  name : String
  pos : Position
  deriving DecidableEq

structure Function where
  returnType : TypeName
  name : String
  params : List Param
  body : Block
  pos : Position

structure TranslationUnit where
  functions : List Function := []

end SmallC
