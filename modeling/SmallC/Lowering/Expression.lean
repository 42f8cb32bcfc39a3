import SmallC.Lowering.Emit

/-!
# Lowering expressions

Every expression leaves its value in the accumulator, `%eax`. A binary operator works on its right
operand first, keeps the value on the stack while it works on the left one, and then takes it off
into a second register. The logical operators skip their right operand by jumping over it.
-/
namespace SmallC

open Assembly

/-- The register for the right operand; a shift takes its count from there. -/
def ArithOp.scratch : ArithOp → Register
  | .shiftLeft | .shiftRight => .ecx
  | _ => .ebx

/-- Applies the operator to the accumulator and the right operand in its register. -/
def ArithOp.code : ArithOp → List Instruction
  | .add => [.addl (.reg .ebx) accumulator]
  | .sub => [.subl (.reg .ebx) accumulator]
  | .mul => [.imull (.reg .ebx) .eax]
  | .div => [.cdq, .idivl (.reg .ebx)]
  | .mod => [.cdq, .idivl (.reg .ebx), .movl (.reg .edx) accumulator]
  | .bitAnd => [.andl (.reg .ebx) accumulator]
  | .bitOr => [.orl (.reg .ebx) accumulator]
  | .bitXor => [.xorl (.reg .ebx) accumulator]
  | .shiftLeft => [.sall .cl accumulator]
  | .shiftRight => [.sarl .cl accumulator]

def CompareOp.condition : CompareOp → Condition
  | .eq => .equal
  | .ne => .notEqual
  | .lt => .less
  | .le => .lessEqual
  | .gt => .greater
  | .ge => .greaterEqual

namespace Lowering

/-- Sets the accumulator to whether it compares to the operand as wanted. -/
def truth (c : Condition) (rhs : Operand) : List Instruction :=
  [.cmpl rhs accumulator, .movl (.imm 0) accumulator, .set c .al]

def toBoolean : List Instruction :=
  truth .notEqual (.imm 0)

variable {Frame : Type} [Layout Frame]

/-- The slot of a variable that has one. -/
def variableSlot (frame : Frame) (name : String) (pos : Position) : Emit Operand :=
  match Layout.offset? frame name with
  | some offset => pure (.frame offset)
  | none => .stop (.undefined name pos)

/-- The slot that is assigned to. Anything but a variable is reported, and a word outside the slots
stands in for it. -/
def targetSlot (frame : Frame) (target : Expr) : Emit Operand :=
  match target.var? with
  | some name => variableSlot frame name target.pos
  | none => do
    .report (.notAssignable target.pos)
    pure (.frame 0)

/-- A step before the operand yields the new value, one after it the old value. -/
def stepBefore (slot : Operand) : StepOp → List Instruction
  | .increment => [.movl slot accumulator, .incl accumulator, .movl accumulator slot]
  | .decrement => [.movl slot accumulator, .decl accumulator, .movl accumulator slot]

def stepAfter (slot : Operand) : StepOp → List Instruction
  | .increment => [.movl slot accumulator, .addl (.imm 1) slot]
  | .decrement => [.movl slot accumulator, .subl (.imm 1) slot]

/-- What a logical operator does once its left operand is known. -/
def branch (isAnd : Bool) (right finish : String) : List Instruction :=
  if isAnd then [.cmpl (.imm 0) accumulator, .jcc .notEqual right, .jmp finish]
  else [.cmpl (.imm 0) accumulator, .jcc .equal right, .movl (.imm 1) accumulator, .jmp finish]

/-- A logical operator; both labels are taken before the operands are lowered. -/
def shortCircuit (isAnd : Bool) (left right : Emit Unit) : Emit Unit := do
  let skipped ← Emit.freshLabel
  let finish ← Emit.freshLabel
  left
  .emit (branch isAnd skipped finish ++ [.label skipped])
  right
  .emit (toBoolean ++ [.label finish])

/-- Stores the accumulator, after combining it with the old value if the assignment is compound. -/
def store (slot : Operand) : AssignOp → List Instruction
  | .plain => [.movl accumulator slot]
  | .compound op =>
    [.movl accumulator (.reg op.scratch), .movl slot accumulator] ++ op.code
      ++ [.movl accumulator slot]

def expr (frame : Frame) : Expr → Emit Unit
  | .number digits _ => .emit [.movl (.literal digits) accumulator]
  | .var name pos => do
    let slot ← variableSlot frame name pos
    .emit [.movl slot accumulator]
  | .unary .neg operand _ => do
    expr frame operand
    .emit [.negl accumulator]
  | .unary .bitNot operand _ => do
    expr frame operand
    .emit [.notl accumulator]
  | .unary .logNot operand _ => do
    expr frame operand
    .emit (truth .equal (.imm 0))
  | .unary (.before op) operand _ => do
    let slot ← targetSlot frame operand
    .emit (stepBefore slot op)
  | .unary (.after op) operand _ => do
    let slot ← targetSlot frame operand
    .emit (stepAfter slot op)
  | .binary .comma left right _ => do
    expr frame left
    expr frame right
  | .binary .logAnd left right _ => shortCircuit true (expr frame left) (expr frame right)
  | .binary .logOr left right _ => shortCircuit false (expr frame left) (expr frame right)
  | .binary (.arith op) left right _ => do
    expr frame right
    .emit [.pushl accumulator]
    expr frame left
    .emit (.popl op.scratch :: op.code)
  | .binary (.compare op) left right _ => do
    expr frame right
    .emit [.pushl accumulator]
    expr frame left
    .emit (.popl .ebx :: truth op.condition (.reg .ebx))
  | .assign op target value _ => do
    let slot ← targetSlot frame target
    expr frame value
    .emit (store slot op)

end Lowering

end SmallC
