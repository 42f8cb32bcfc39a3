import Mathlib
import SmallC.Proofs.Assembly.Refinement
import SmallC.Proofs.Lowering.Parallel
import SmallC.Proofs.Lowering.StackHeight

/-!
# Lowering over frame tables

A unit can be lowered over frame tables in place of lists of names. A table hands out the same slots, with
displacements that are 32-bit words, and it does not matter what was interned in it before the function. So the code
is the same but for displacements that wrap around, and with fewer than `2 ^ 29` variables in a function none does.
-/
namespace SmallC

open Assembly

namespace Lowering

open Emit

/-- The displacement that a 32-bit word can hold. -/
def wrapped (displacement : Int) : Int :=
  (Int32.ofInt displacement).toInt

def Emission.displace {α : Type} (g : Int → Int) (e : Emission α) : Emission α :=
  { e with code := e.code.map (·.displace g) }

/-- Functions one after the other, each over a frame of its own. -/
def functionsOver {Frame : Type} [Layout Frame] : List (Frame × Function) → Emit Unit
  | [] => Pure.pure ()
  | (frame, f) :: more => do
    functionOver frame f
    functionsOver more

section Tables

variable {Store Symbol : Type} [DecidableEq Symbol] [Interner Store Symbol] [LawfulInterner Store Symbol]

theorem mirrors_table :
    Mirrors { displace := wrapped } fun (t : FrameTable Store Symbol) (s : Slots) => t.Represents s where
  offset? h name := by
    change Option.map Int32.toInt _ = _
    rw [h.offset?_eq name, Option.map_map]
    rfl
  declare h name := (h.declare name).2
  zero := by decide

/-- Over a table that was reset, a function comes to the same code with displacements of 32 bits. -/
theorem functionOver_reset (t : FrameTable Store Symbol) (f : Function) (l : Labels) :
    functionOver t.reset f l = (function f l).displace wrapped := by
  let c : Change := { displace := wrapped }
  have hfault : c.fault = id := funext Fault.relocate_id
  have hbody := (parallel_functionBody (c := c) mirrors_table t.represents_reset
    (Labels.renumber_zero f.name)).eq rfl l
  rw [f.relocate_id, Change.instruction_displace rfl, hfault, List.map_id] at hbody
  unfold function functionOver
  rw [hbody]
  rcases functionBody ({} : Slots) f l with ⟨fault | _, code, faults, labels⟩
  · rfl
  · rfl

theorem functionsOver_reset (ts : List (FrameTable Store Symbol × Function)) (l : Labels) :
    functionsOver (ts.map fun p => (p.1.reset, p.2)) l = (functions (ts.map Prod.snd) l).displace wrapped := by
  induction ts generalizing l with
  | nil => rfl
  | cons p ts ih =>
    have hown := functionOver_reset p.1 p.2 l
    have hok := function_ok p.2 l
    rw [List.map_cons, List.map_cons, functions_cons, functionsOver]
    rcases hrun : function p.2 l with ⟨result, code, faults, l'⟩
    rw [hrun] at hown hok
    subst hok
    rw [bind_of_ok hown, ih, Emission.displace, Emission.displace, List.map_append]

end Tables

variable {n : Nat}

theorem wrapped_of_inSlots {displacement : Int} (h : InSlots n displacement) (hn : n < 2 ^ 29) :
    wrapped displacement = displacement := by
  obtain ⟨j, hone, hj, rfl⟩ := h
  have hslot : -4 * (j : Int) = Slots.offsetAt (j - 1) := by
    unfold Slots.offsetAt
    omega
  rw [hslot]
  exact Slots.toInt_offsetAt (by omega)

theorem Works.displace_eq {W : String → Prop} {i : Instruction} (h : Works W (InSlots n) i) (hn : n < 2 ^ 29) :
    i.displace wrapped = i := by
  have hoperands : ∀ op ∈ i.operands, op.displace wrapped = op := by
    intro op hop
    have hknown := h.2 op hop
    cases op with
    | mem displacement base => exact congrArg (Operand.mem · base) (wrapped_of_inSlots hknown.2 hn)
    | reg | imm | literal => rfl
  cases i <;> simp_all [Instruction.displace, Instruction.operands]

theorem Thread.displace_eq {i : Instruction} (h : Thread i) : i.displace wrapped = i := by
  cases h with
  | push | pop | label | jump | branch => rfl
  | work h => exact Works.displace_eq (W := fun _ => True) (n := 0) h.of_false (by decide)

theorem Woven.displace_eq {W : String → Prop} {first k : Nat} {code : List Instruction}
    (h : Woven (Works W (InSlots n)) first k code) (hn : n < 2 ^ 29) : ∀ i ∈ code, i.displace wrapped = i :=
  h.forall_mem (fun _ hi => hi.displace_eq hn) fun _ => Thread.displace_eq

theorem displace_leave : ∀ i ∈ leave, i.displace wrapped = i := by
  simp [leave, Instruction.displace, Operand.displace]

mutual

/-- Statements work on slots only, and few enough slots are where they should be. -/
theorem displace_stmt : ∀ {s : Stmt} {slots slots' : Slots} {l l' : Labels} {code : List Instruction},
    (stmt slots s).Yields l slots' code l' → slots'.size < 2 ^ 29 → ∀ i ∈ code, i.displace wrapped = i
  | .block _ _, _, _, _, _, _, hy, hfew => displace_stmts hy hfew
  | .returns _ _, _, _, _, _, _, hy, hfew => by
    obtain ⟨rfl, first, hvalue, rfl⟩ := returns_yields hy
    exact List.forall_mem_append.2 ⟨(woven_expr hvalue).displace_eq hfew, displace_leave⟩
  | .expr _ _, _, _, _, _, _, hy, hfew => by
    obtain ⟨rfl, hvalue⟩ := exprStmt_yields hy
    exact (woven_expr hvalue).displace_eq hfew
  | .declare _ _ _ _, slots, _, _, _, _, hy, hfew => by
    have hsize := size_stmt hy
    obtain ⟨-, -, value, hvalue, rfl⟩ := declare_yields hy
    obtain ⟨_, hwoven⟩ := woven_initial hvalue
    exact List.forall_mem_append.2 ⟨hwoven.displace_eq (by omega), List.forall_mem_singleton.2 rfl⟩

theorem displace_stmts : ∀ {body : List Stmt} {slots slots' : Slots} {l l' : Labels} {code : List Instruction},
    (stmts slots body).Yields l slots' code l' → slots'.size < 2 ^ 29 → ∀ i ∈ code, i.displace wrapped = i
  | [], _, _, _, _, _, hy, _ => by
    obtain ⟨-, rfl, -⟩ := pure_yields.1 hy
    exact List.forall_mem_nil _
  | _ :: _, _, _, _, _, _, hy, hfew => by
    obtain ⟨_, _, _, _, hown, hrest, rfl⟩ := bind_yields.1 hy
    have hsize := size_stmts hrest
    exact List.forall_mem_append.2 ⟨displace_stmt hown (by omega), displace_stmts hrest hfew⟩

end

/-- The code of a function without faults has all its slots within 32 bits. -/
theorem displace_function {f : Function} {l : Labels} (h : (function f l).faults = [])
    (hfew : Stmt.declaredAll f.body.body < 2 ^ 29) : (function f l).displace wrapped = function f l := by
  obtain ⟨slots, code, _, hstmts, hcode⟩ := function_code h
  have hsize := size_stmts hstmts
  have hempty : ({} : Slots).size = 0 := rfl
  have hbody := displace_stmts hstmts (by omega)
  have hentry : ∀ i ∈ entry f, i.displace wrapped = i := by
    simp [entry, enter, Instruction.displace, Operand.displace]
  have hend : ∀ i ∈ (if endsWithReturn f.body.body then [] else leave) ++ [.blank], i.displace wrapped = i := by
    refine List.forall_mem_append.2 ⟨?_, List.forall_mem_singleton.2 rfl⟩
    split
    · exact List.forall_mem_nil _
    · exact displace_leave
  have hall : ∀ i ∈ (function f l).code, i.displace wrapped = id i := by
    rw [hcode]
    exact List.forall_mem_append.2 ⟨hentry, List.forall_mem_append.2 ⟨hbody, hend⟩⟩
  rw [Emission.displace, List.map_congr_left hall, List.map_id]

theorem displace_functions {fs : List Function} {l : Labels} (h : (functions fs l).faults = [])
    (hfew : ∀ f ∈ fs, Stmt.declaredAll f.body.body < 2 ^ 29) :
    (functions fs l).displace wrapped = functions fs l := by
  induction fs generalizing l with
  | nil => rfl
  | cons f fs ih =>
    obtain ⟨hf, hfs⟩ := List.forall_mem_cons.1 hfew
    rw [functions_cons] at h ⊢
    obtain ⟨hown, hrest⟩ := List.append_eq_nil_iff.1 h
    have hcode := congrArg Emission.code (displace_function hown hf)
    have hcode' := congrArg Emission.code (ih hrest hfs)
    simp only [Emission.displace] at hcode hcode' ⊢
    rw [List.map_append, hcode, hcode']

/-- Functions that are lowered over tables, whatever these held before they were reset, come to what they come to over
slots, with displacements of 32 bits. If they have no faults and fewer than `2 ^ 29` variables each, that is
the same. -/
theorem tables_lower_alike {Store Symbol : Type} [DecidableEq Symbol] [Interner Store Symbol]
    [LawfulInterner Store Symbol] (ts : List (FrameTable Store Symbol × Function)) (l : Labels) :
    let tabled := functionsOver (ts.map fun p => (p.1.reset, p.2)) l
    let fs := ts.map Prod.snd
    tabled = (functions fs l).displace wrapped ∧
      ((functions fs l).faults = [] → (∀ f ∈ fs, Stmt.declaredAll f.body.body < 2 ^ 29) →
        tabled = functions fs l) := by
  intro tabled fs
  have htabled : tabled = (functions fs l).displace wrapped := functionsOver_reset ts l
  exact ⟨htabled, fun hfaults hfew => htabled.trans (displace_functions hfaults hfew)⟩

-- the table holds the names of another function, and `b` comes before `a` here
example :
    let here : Position := ⟨0, 0, ⟨0, 0⟩⟩
    let used : FrameTable Numbering Nat := FrameTable.empty.run [.declare "a", .declare "b"]
    let body : List Stmt := [.declare ⟨"int", here⟩ "b" none here, .declare ⟨"int", here⟩ "a" none here,
      .returns (.var "a" here) here]
    Instruction.movl (.frame (-8)) accumulator ∈
      (functionOver used.reset ⟨⟨"int", here⟩, "f", [], ⟨body, here⟩, here⟩ {}).code := by
  decide

end Lowering

end SmallC
