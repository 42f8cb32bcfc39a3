import SmallC.Proofs.Machine.Memory
import SmallC.Tree
import Mathlib.Logic.Function.Basic

/-!
# What programs mean

The value of an expression and the result of a function, worked out on the tree. Numbers are 32-bit
words that wrap round. The working state is an accumulator, which holds the value of the expression
evaluated last, and the variables that have been declared. Two facts of the language show in it: an
operator works on its right operand before its left one, and what has no value of its own (a variable
declared without one, a function that ends without returning) takes the accumulator as it stands.
-/
namespace SmallC

open Machine (Word)

/-- Why there is no value. -/
inductive Stop where
  /-- A division by zero, or one whose quotient does not fit. -/
  | division
  /-- A name that is not declared or declared twice, or an assignment to something else. -/
  | meaningless
  deriving DecidableEq

structure Env where
  accumulator : Word
  values : String → Option Word

namespace Env

/-- Makes `v` the value of the accumulator. -/
def yield (env : Env) (v : Word) : Env :=
  { env with accumulator := v }

def bind (env : Env) (name : String) (v : Word) : Env :=
  { env with values := Function.update env.values name (some v) }

def lookup (env : Env) (name : String) : Except Stop Word :=
  match env.values name with
  | some v => .ok v
  | none => .error .meaningless

end Env

/-- Truth as a number. -/
def truthValue (b : Bool) : Word :=
  if b then 1#32 else 0#32

/-- Whether the quotient exists and fits in a word. -/
def divisible (a b : Word) : Bool :=
  b != 0#32 && !(a == BitVec.intMin 32 && b == -1#32)

/-- Division goes toward zero, and the remainder has the sign of the left operand. A shift takes its
count modulo the width of a word, and a shift to the right keeps the sign. -/
def ArithOp.apply (op : ArithOp) (a b : Word) : Except Stop Word :=
  match op with
  | .add => .ok (a + b)
  | .sub => .ok (a - b)
  | .mul => .ok (a * b)
  | .div => if divisible a b then .ok (a.sdiv b) else .error .division
  | .mod => if divisible a b then .ok (a.srem b) else .error .division
  | .bitAnd => .ok (a &&& b)
  | .bitOr => .ok (a ||| b)
  | .bitXor => .ok (a ^^^ b)
  | .shiftLeft => .ok (a <<< (b.toNat % 32))
  | .shiftRight => .ok (a.sshiftRight (b.toNat % 32))

/-- Comparisons are of signed numbers. -/
def CompareOp.holds (op : CompareOp) (a b : Word) : Bool :=
  match op with
  | .eq => a == b
  | .ne => a != b
  | .lt => a.toInt < b.toInt
  | .le => a.toInt ≤ b.toInt
  | .gt => b.toInt < a.toInt
  | .ge => b.toInt ≤ a.toInt

def StepOp.apply (op : StepOp) (v : Word) : Word :=
  match op with
  | .increment => v + 1#32
  | .decrement => v - 1#32

def AssignOp.apply (op : AssignOp) (old v : Word) : Except Stop Word :=
  match op with
  | .plain => .ok v
  | .compound op => op.apply old v

/-- The name that can be assigned to. -/
def Expr.target (e : Expr) : Except Stop String :=
  match e.var? with
  | some name => .ok name
  | none => .error .meaningless

/-- Evaluates an expression; its value is the accumulator afterwards. -/
def Expr.eval (literal : String → Word) : Expr → Env → Except Stop Env
  | .number digits _, env => .ok (env.yield (literal digits))
  | .var name _, env => do
    let v ← env.lookup name
    .ok (env.yield v)
  | .unary .neg operand _, env => do
    let env ← operand.eval literal env
    .ok (env.yield (-env.accumulator))
  | .unary .bitNot operand _, env => do
    let env ← operand.eval literal env
    .ok (env.yield (~~~env.accumulator))
  | .unary .logNot operand _, env => do
    let env ← operand.eval literal env
    .ok (env.yield (truthValue (env.accumulator == 0#32)))
  | .unary (.before op) operand _, env => do
    let name ← operand.target
    let old ← env.lookup name
    .ok ((env.bind name (op.apply old)).yield (op.apply old))
  | .unary (.after op) operand _, env => do
    let name ← operand.target
    let old ← env.lookup name
    .ok ((env.bind name (op.apply old)).yield old)
  | .binary .comma left right _, env => do
    let env ← left.eval literal env
    right.eval literal env
  | .binary .logAnd left right _, env => do
    let env ← left.eval literal env
    if env.accumulator = 0#32 then .ok (env.yield 0#32)
    else
      let env ← right.eval literal env
      .ok (env.yield (truthValue (env.accumulator != 0#32)))
  | .binary .logOr left right _, env => do
    let env ← left.eval literal env
    if env.accumulator ≠ 0#32 then .ok (env.yield 1#32)
    else
      let env ← right.eval literal env
      .ok (env.yield (truthValue (env.accumulator != 0#32)))
  | .binary (.arith op) left right _, env => do
    let afterRight ← right.eval literal env
    let afterLeft ← left.eval literal afterRight
    let v ← op.apply afterLeft.accumulator afterRight.accumulator
    .ok (afterLeft.yield v)
  | .binary (.compare op) left right _, env => do
    let afterRight ← right.eval literal env
    let afterLeft ← left.eval literal afterRight
    .ok (afterLeft.yield (truthValue (op.holds afterLeft.accumulator afterRight.accumulator)))
  | .assign op target value _, env => do
    let name ← target.target
    let env ← value.eval literal env
    let old ← env.lookup name
    let v ← op.apply old env.accumulator
    .ok ((env.bind name v).yield v)

/-- How a statement is left. -/
inductive Flow where
  | onward (env : Env)
  | returned (v : Word)

/-- The value that a declaration starts with. -/
def initialValue (literal : String → Word) : Option Expr → Env → Except Stop Env
  | some value, env => value.eval literal env
  | none, env => .ok env

mutual

/-- A name stays declared to the end of the function, whatever block it is declared in. -/
def Stmt.exec (literal : String → Word) : Stmt → Env → Except Stop Flow
  | .block body _, env => Stmt.execAll literal body env
  | .returns value _, env => do
    let env ← value.eval literal env
    .ok (.returned env.accumulator)
  | .expr value _, env => do
    let env ← value.eval literal env
    .ok (.onward env)
  | .declare _ name init _, env => do
    if (env.values name).isSome then .error .meaningless
    else
      let env ← initialValue literal init env
      .ok (.onward (env.bind name env.accumulator))

def Stmt.execAll (literal : String → Word) : List Stmt → Env → Except Stop Flow
  | [], env => .ok (.onward env)
  | s :: more, env => do
    match ← s.exec literal env with
    | .onward env => Stmt.execAll literal more env
    | .returned v => .ok (.returned v)

end

/-- The result of a function that is called with the given accumulator. -/
def Function.result (literal : String → Word) (f : Function) (accumulator : Word) :
    Except Stop Word := do
  match ← Stmt.execAll literal f.body.body ⟨accumulator, fun _ => none⟩ with
  | .onward env => .ok env.accumulator
  | .returned v => .ok v

end SmallC
