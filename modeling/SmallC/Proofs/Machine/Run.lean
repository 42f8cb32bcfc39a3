import Mathlib.Algebra.Group.Int.Defs
import SmallC.Assembly
import SmallC.Proofs.Machine.Memory

/-!
# Running code

A machine with the six word registers that programs use, byte memory and the flags of a signed
comparison. Code is a list of instructions and an address in it is a place in the list. What the flags
are after arithmetic is left open, except after a comparison, and so is the number that the digits of a
literal stand for. An instruction in a form that no 32-bit machine has, or a jump to a label that is
nowhere, gets the machine stuck.
-/
namespace SmallC.Machine

open Assembly

structure Flags where
  zero : Bool
  sign : Bool
  overflow : Bool

namespace Flags

/-- What comparing `b` to `a` leaves, which is what subtracting it would leave. -/
def compare (a b : Word) : Flags :=
  ⟨a == b, (a - b).msb, a.ssubOverflow b⟩

def holds (f : Flags) : Condition → Bool
  | .equal => f.zero
  | .notEqual => !f.zero
  | .less => f.sign != f.overflow
  | .lessEqual => f.zero || f.sign != f.overflow
  | .greater => !f.zero && f.sign == f.overflow
  | .greaterEqual => f.sign == f.overflow

end Flags

structure State where
  eax : Word
  ebx : Word
  ecx : Word
  edx : Word
  esp : Word
  ebp : Word
  flags : Flags
  memory : Memory
  /-- Place of the next instruction. -/
  pc : Nat

namespace State

def get (s : State) : Register → Word
  | .eax => s.eax
  | .ebx => s.ebx
  | .ecx => s.ecx
  | .edx => s.edx
  | .esp => s.esp
  | .ebp => s.ebp
  | .al => s.eax &&& 0xff#32
  | .cl => s.ecx &&& 0xff#32

/-- Sets a register; a byte register is the low byte of its word. -/
def set (s : State) : Register → Word → State
  | .eax, v => { s with eax := v }
  | .ebx, v => { s with ebx := v }
  | .ecx, v => { s with ecx := v }
  | .edx, v => { s with edx := v }
  | .esp, v => { s with esp := v }
  | .ebp, v => { s with ebp := v }
  | .al, v => { s with eax := (s.eax &&& ~~~0xff#32) ||| (v &&& 0xff#32) }
  | .cl, v => { s with ecx := (s.ecx &&& ~~~0xff#32) ||| (v &&& 0xff#32) }

def push (s : State) (v : Word) : State :=
  { s with esp := s.esp - 4#32, memory := s.memory.store (s.esp - 4#32) v }

def pop (s : State) : Word × State :=
  (s.memory.load s.esp, { s with esp := s.esp + 4#32 })

/-- Divides the double word in `%edx` and `%eax`, unless the quotient does not exist or fit. -/
def divide? (s : State) (divisor : Word) : Option State :=
  let dividend := (s.edx ++ s.eax).toInt
  let quotient := dividend.tdiv divisor.toInt
  if divisor = 0#32 ∨ quotient < -2 ^ 31 ∨ 2 ^ 31 ≤ quotient then none
  else
    some { s with
      eax := BitVec.ofInt 32 quotient
      edx := BitVec.ofInt 32 (dividend.tmod divisor.toInt) }

end State

/-- The high half of a double word that is the same number as `a`. -/
def signWord (a : Word) : Word :=
  if a.msb then -1#32 else 0#32

/-- Whether the register holds a word and not a byte. -/
def isWide : Register → Bool
  | .al | .cl => false
  | _ => true

def isMemory : Operand → Bool
  | .mem _ _ => true
  | _ => false

/-- What an instruction leads to. -/
inductive Outcome where
  | running (s : State)
  /-- A division without a result. -/
  | trapped (s : State)
  | interrupted (vector : UInt8) (s : State)
  | stuck

/-- Loaded code, with what is left open about the machine. -/
structure Image where
  code : List Instruction
  /-- What the digits of a literal stand for. -/
  literal : String → Word
  /-- The flags after arithmetic that is not a comparison. -/
  flagsAfter : Instruction → State → Flags

namespace Image

def value? (p : Image) (s : State) : Operand → Option Word
  | .reg r => if isWide r then some (s.get r) else none
  | .imm value => some (BitVec.ofInt 32 value)
  | .literal digits => some (p.literal digits)
  | .mem displacement base =>
    if isWide base then some (s.memory.load (s.get base + BitVec.ofInt 32 displacement)) else none

def write? (s : State) (v : Word) : Operand → Option State
  | .reg r => if isWide r then some (s.set r v) else none
  | .mem displacement base =>
    if isWide base then
      some { s with memory := s.memory.store (s.get base + BitVec.ofInt 32 displacement) v }
    else none
  | _ => none

/-- Puts `f old new` where the second operand `old` was; one of the two has to be a register or a
number. -/
def combine? (p : Image) (s : State) (src dst : Operand) (f : Word → Word → Word) : Option State :=
  if isMemory src && isMemory dst then none
  else do
    let new ← p.value? s src
    let old ← p.value? s dst
    write? s (f old new) dst

def change? (p : Image) (s : State) (op : Operand) (f : Word → Word) : Option State := do
  let old ← p.value? s op
  write? s (f old) op

/-- Goes on behind the instruction. -/
def next : Option State → Outcome
  | some s => .running { s with pc := s.pc + 1 }
  | none => .stuck

/-- Goes on behind an instruction that may change the flags at will. -/
def nextAfter (p : Image) (i : Instruction) (s : State) (o : Option State) : Outcome :=
  next (o.map fun t => { t with flags := p.flagsAfter i s })

def jump (p : Image) (s : State) (target : String) : Outcome :=
  match p.code.idxOf? (.label target) with
  | some place => .running { s with pc := place }
  | none => .stuck

/-- Shifts take their count from the low five bits of `%cl`. -/
def shift? (p : Image) (s : State) (count : Register) (dst : Operand) (f : Word → Nat → Word) :
    Option State :=
  if count = .cl then p.change? s dst fun v => f v ((s.get .cl).toNat % 32) else none

def divide (p : Image) (i : Instruction) (s : State) (op : Operand) : Outcome :=
  match p.value? s op with
  | none => .stuck
  | some divisor =>
    match s.divide? divisor with
    | none => .trapped s
    | some t => p.nextAfter i s (some t)

def exec (p : Image) (i : Instruction) (s : State) : Outcome :=
  match i with
  | .movl src dst => next (p.combine? s src dst fun _ new => new)
  | .pushl op => next ((p.value? s op).map s.push)
  | .popl r => next (if isWide r then some (s.pop.2.set r s.pop.1) else none)
  | .addl src dst => p.nextAfter i s (p.combine? s src dst (· + ·))
  | .subl src dst => p.nextAfter i s (p.combine? s src dst (· - ·))
  | .imull src dst => p.nextAfter i s (p.combine? s src (.reg dst) (· * ·))
  | .cdq => next (some { s with edx := signWord s.eax })
  | .idivl op => p.divide i s op
  | .negl op => p.nextAfter i s (p.change? s op (- ·))
  | .incl op => p.nextAfter i s (p.change? s op (· + 1#32))
  | .decl op => p.nextAfter i s (p.change? s op (· - 1#32))
  | .andl src dst => p.nextAfter i s (p.combine? s src dst (· &&& ·))
  | .orl src dst => p.nextAfter i s (p.combine? s src dst (· ||| ·))
  | .xorl src dst => p.nextAfter i s (p.combine? s src dst (· ^^^ ·))
  | .notl op => next (p.change? s op (~~~ ·))
  | .sall count dst => p.nextAfter i s (p.shift? s count dst (· <<< ·))
  | .sarl count dst => p.nextAfter i s (p.shift? s count dst BitVec.sshiftRight)
  | .cmpl src dst =>
    next (if isMemory src && isMemory dst then none
      else do
        let b ← p.value? s src
        let a ← p.value? s dst
        some { s with flags := .compare a b })
  | .set c r =>
    next (if isWide r then none else some (s.set r (if s.flags.holds c then 1#32 else 0#32)))
  | .jmp target => p.jump s target
  | .jcc c target => if s.flags.holds c then p.jump s target else next (some s)
  | .call target => p.jump (s.push (BitVec.ofNat 32 (s.pc + 1))) target
  | .ret => .running { s.pop.2 with pc := s.pop.1.toNat }
  | .int vector => .interrupted vector s
  | .label _ | .comment _ | .directive _ | .blank => next (some s)

def step (p : Image) (s : State) : Outcome :=
  match p.code[s.pc]? with
  | some i => p.exec i s
  | none => .stuck

/-- At most `n` steps; a run that has ended stays as it is. -/
def run (p : Image) : Nat → State → Outcome
  | 0, s => .running s
  | n + 1, s =>
    match p.step s with
    | .running t => p.run n t
    | ended => ended

/-- The instructions of a block one after the other, wherever they stand. -/
def execAll (p : Image) : List Instruction → State → Outcome
  | [], s => .running s
  | i :: more, s =>
    match p.exec i s with
    | .running t => p.execAll more t
    | ended => ended

end Image

end SmallC.Machine
