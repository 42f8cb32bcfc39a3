import SmallC.Assembly
import SmallC.Assembly.Slots
import SmallC.Problem
import SmallC.Tree

/-!
# Emitting code

A lowering takes the labels left and yields instructions in order, the faults it found, and a value,
or the fault at which it had to stop. Faults that do not stop it are reported and worked around.
-/
namespace SmallC.Lowering

open Assembly

/-- What is wrong with a program that reads well. -/
inductive Fault where
  | undefined (name : String) (pos : Position)
  | redefined (name : String) (pos : Position)
  | notAssignable (pos : Position)
  | noLabel
  deriving DecidableEq

namespace Fault

def message : Fault → String
  | undefined name _ => "undefined variable '" ++ name ++ "'"
  | redefined name _ => "redefinition of variable '" ++ name ++ "'"
  | notAssignable _ => "invalid assignment target"
  | noLabel => "label counter exhausted"

def problem (f : Fault) : Problem :=
  match f with
  | undefined _ pos => .semantic f.message pos
  | redefined _ pos => .semantic f.message pos
  | notAssignable pos => .semantic f.message pos
  | noLabel => .generation f.message

end Fault

structure Emission (α : Type) where
  result : Except Fault α
  code : List Instruction
  faults : List Fault
  labels : Labels

/-- A computation that emits code. -/
def Emit (α : Type) : Type :=
  Labels → Emission α

namespace Emit

def pure {α : Type} (a : α) : Emit α :=
  fun labels => ⟨.ok a, [], [], labels⟩

/-- What was emitted before a stop is kept, in order. -/
def bind {α β : Type} (x : Emit α) (f : α → Emit β) : Emit β :=
  fun labels =>
    match x labels with
    | ⟨.ok a, code, faults, labels⟩ =>
      let next := f a labels
      ⟨next.result, code ++ next.code, faults ++ next.faults, next.labels⟩
    | ⟨.error fault, code, faults, labels⟩ => ⟨.error fault, code, faults, labels⟩

instance : Monad Emit where
  pure := pure
  bind := bind

def emit (code : List Instruction) : Emit Unit :=
  fun labels => ⟨.ok (), code, [], labels⟩

/-- Reports a fault and goes on. -/
def report (fault : Fault) : Emit Unit :=
  fun labels => ⟨.ok (), [], [fault], labels⟩

def stop {α : Type} (fault : Fault) : Emit α :=
  fun labels => ⟨.error fault, [], [], labels⟩

def freshLabel : Emit String :=
  fun labels =>
    match labels.fresh? with
    | some (name, labels) => ⟨.ok name, [], [], labels⟩
    | none => ⟨.error .noLabel, [], [], labels⟩

end Emit

end SmallC.Lowering
