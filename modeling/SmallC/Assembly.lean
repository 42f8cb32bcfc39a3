import SmallC.Text.Escape

/-!
# Assembly

The instructions of 32-bit x86 that programs are made of, with the source operand first, and the text
that an assembler reads, one line to an instruction.
-/
namespace SmallC.Assembly

inductive Register where
  | eax
  | ebx
  | ecx
  | edx
  | esp
  | ebp
  | al
  | cl
  deriving DecidableEq

/-- Conditions on the flags of a signed comparison. -/
inductive Condition where
  | equal
  | notEqual
  | less
  | lessEqual
  | greater
  | greaterEqual
  deriving DecidableEq

inductive Operand where
  | reg (r : Register)
  | imm (value : Int)
  /-- A number spelled as the program spells it. -/
  | literal (digits : String)
  | mem (displacement : Int) (base : Register)
  deriving DecidableEq

inductive Instruction where
  | movl (src dst : Operand)
  | pushl (op : Operand)
  | popl (r : Register)
  | addl (src dst : Operand)
  | subl (src dst : Operand)
  | imull (src : Operand) (dst : Register)
  | cdq
  | idivl (op : Operand)
  | negl (op : Operand)
  | incl (op : Operand)
  | decl (op : Operand)
  | andl (src dst : Operand)
  | orl (src dst : Operand)
  | xorl (src dst : Operand)
  | notl (op : Operand)
  | sall (count : Register) (dst : Operand)
  | sarl (count : Register) (dst : Operand)
  | cmpl (src dst : Operand)
  | set (c : Condition) (r : Register)
  | jmp (target : String)
  | jcc (c : Condition) (target : String)
  | call (target : String)
  | ret
  | int (vector : UInt8)
  | label (name : String)
  | comment (text : String)
  | directive (text : String)
  | blank
  deriving DecidableEq

namespace Register

def render : Register → String
  | eax => "%eax"
  | ebx => "%ebx"
  | ecx => "%ecx"
  | edx => "%edx"
  | esp => "%esp"
  | ebp => "%ebp"
  | al => "%al"
  | cl => "%cl"

end Register

namespace Condition

def render : Condition → String
  | equal => "e"
  | notEqual => "ne"
  | less => "l"
  | lessEqual => "le"
  | greater => "g"
  | greaterEqual => "ge"

end Condition

namespace Operand

/-- The word at an offset from the frame pointer. -/
def frame (offset : Int) : Operand :=
  mem offset .ebp

def render : Operand → String
  | reg r => r.render
  | imm value => "$" ++ toString value
  | literal digits => "$" ++ digits
  | mem displacement base => toString displacement ++ "(" ++ base.render ++ ")"

end Operand

/-- The register that values are worked out in. -/
def accumulator : Operand :=
  .reg .eax

namespace Instruction

def line (mnemonic : String) (operands : List String) : String :=
  if operands.isEmpty then "    " ++ mnemonic
  else "    " ++ mnemonic ++ " " ++ String.intercalate ", " operands

/-- The instruction as a line without its newline. -/
def render : Instruction → String
  | movl src dst => line "movl" [src.render, dst.render]
  | pushl op => line "pushl" [op.render]
  | popl r => line "popl" [r.render]
  | addl src dst => line "addl" [src.render, dst.render]
  | subl src dst => line "subl" [src.render, dst.render]
  | imull src dst => line "imull" [src.render, dst.render]
  | cdq => line "cdq" []
  | idivl op => line "idivl" [op.render]
  | negl op => line "negl" [op.render]
  | incl op => line "incl" [op.render]
  | decl op => line "decl" [op.render]
  | andl src dst => line "andl" [src.render, dst.render]
  | orl src dst => line "orl" [src.render, dst.render]
  | xorl src dst => line "xorl" [src.render, dst.render]
  | notl op => line "notl" [op.render]
  | sall count dst => line "sall" [count.render, dst.render]
  | sarl count dst => line "sarl" [count.render, dst.render]
  | cmpl src dst => line "cmpl" [src.render, dst.render]
  | set c r => line ("set" ++ c.render) [r.render]
  | jmp target => line "jmp" [target]
  | jcc c target => line ("j" ++ c.render) [target]
  | call target => line "call" [target]
  | ret => line "ret" []
  | int vector => line "int" ["$0x" ++ Text.hex vector.toNat]
  | label name => name ++ ":"
  | comment text => "# " ++ text
  | directive text => text
  | blank => ""

/-- The text of a program, every line ended by a newline. -/
def renderAll (code : List Instruction) : String :=
  String.join (code.map fun i => i.render ++ "\n")

end Instruction

end SmallC.Assembly
