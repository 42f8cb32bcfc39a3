import SmallC.Lowering.Expression

/-!
# Lowering statements, functions and units

A function that has to stop leaves a comment in place of its code. Its variables are known from their
declaration to its end, whatever blocks they stand in. The code of a unit starts with the entry point
of the process, which calls `main` and exits with its result.
-/
namespace SmallC.Lowering

open Assembly

/-- Puts the stack back and returns to the caller. -/
def leave : List Instruction :=
  [.movl (.reg .ebp) (.reg .esp), .popl .ebp, .ret]

def enter : List Instruction :=
  [.pushl (.reg .ebp), .movl (.reg .esp) (.reg .ebp), .blank]

variable {Frame : Type} [Layout Frame]

def initial (frame : Frame) : Option Expr → Emit Unit
  | some value => expr frame value
  | none => pure ()

mutual

/-- Lowers a statement and yields the frame with the variables known after it. -/
def stmt (frame : Frame) : Stmt → Emit Frame
  | .block body _ => stmts frame body
  | .returns value _ => do
    expr frame value
    .emit leave
    pure frame
  | .expr value _ => do
    expr frame value
    pure frame
  | .declare _ name init pos => do
    if (Layout.offset? frame name).isSome then
      .report (.redefined name pos)
      pure frame
    else
      initial frame init
      .emit [.pushl accumulator]
      pure (Layout.declare frame name)

def stmts (frame : Frame) : List Stmt → Emit Frame
  | [] => pure frame
  | s :: more => do
    let frame ← stmt frame s
    stmts frame more

end

def endsWithReturn (body : List Stmt) : Bool :=
  match body.getLast? with
  | some (.returns _ _) => true
  | _ => false

/-- The function from its entry on; `frame` is to have no variables yet. -/
def functionBody (frame : Frame) (f : Function) : Emit Unit := do
  .emit ([.directive (".globl " ++ f.name), .label f.name] ++ enter)
  let _ ← stmts frame f.body.body
  .emit (if endsWithReturn f.body.body then [] else leave)
  .emit [.blank]

/-- The code of a function, or the comment that stands in for it. -/
def functionOver (frame : Frame) (f : Function) : Emit Unit :=
  fun labels =>
    match functionBody frame f labels with
    | ⟨.ok (), code, faults, labels⟩ => ⟨.ok (), code, faults, labels⟩
    | ⟨.error fault, _, faults, labels⟩ =>
      ⟨.ok (), [.comment (f.name ++ " aborted: " ++ fault.message), .blank], faults ++ [fault],
        labels⟩

def function (f : Function) : Emit Unit :=
  functionOver ({} : Slots) f

def functions : List Function → Emit Unit
  | [] => pure ()
  | f :: more => do
    function f
    functions more

def header : List Instruction :=
  [.comment "Compiled by ccomp", .blank, .directive ".globl _start", .label "_start", .call "main",
    .movl accumulator (.reg .ebx), .movl (.imm 1) accumulator, .int 0x80, .blank]

def footer : List Instruction :=
  [.comment "End of compiling."]

/-- The code of a unit, with the faults found in it. -/
structure Program where
  code : List Instruction
  faults : List Fault
  /-- The labels left for the next unit. -/
  labels : Labels

namespace Program

def text (p : Program) : String :=
  Instruction.renderAll p.code

def problems (p : Program) : List Problem :=
  p.faults.map Fault.problem

def hasFault (p : Program) : Bool :=
  !p.faults.isEmpty

end Program

def program (labels : Labels) (unit : TranslationUnit) : Program :=
  let body := functions unit.functions labels
  ⟨header ++ body.code ++ footer, body.faults, body.labels⟩

end SmallC.Lowering
