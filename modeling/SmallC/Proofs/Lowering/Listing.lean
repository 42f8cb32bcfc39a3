import Mathlib
import SmallC.Proofs.Assembly.Reading
import SmallC.Proofs.Faithfulness
import SmallC.Proofs.Lowering.Faults

/-!
# Listings can be read

The names and numbers in a unit that was read are spelled like such, and so are the labels that are taken. So the
instructions that it is lowered to are legible, and a comment that stands in for a function fits on its line. The
instructions can be told from the text that they are listed as.
-/
namespace SmallC

open Assembly

/-- A label is spelled like a name, so one can be taken for the other but for nothing else. -/
theorem Assembly.Labels.isName_name (number : Nat) : Text.isName (name number) = true := by
  have htext : (name number).toList = '_' :: ("label".toList ++ number.repr.toList) := String.toList_append
  have hparts : ("label".toList ++ number.repr.toList).all Text.isWordPart = true := by
    rw [List.all_append, Nat.toList_repr, Bool.and_eq_true]
    refine ⟨rfl, List.all_eq_true.2 fun c hc => Scan.isWordPart_of_isDigit ?_⟩
    exact Nat.isDigit_of_mem_toDigits (by decide) (by decide) hc
  have hkeyword : ∀ word : String, word.toList.head? ≠ some '_' → name number ≠ word := by
    rintro _ hword rfl
    rw [htext] at hword
    exact hword rfl
  unfold Text.isName
  rw [htext]
  simp only [Bool.and_eq_true, bne_iff_ne]
  exact ⟨⟨⟨rfl, hparts⟩, hkeyword "int" (by decide)⟩, hkeyword "return" (by decide)⟩

theorem Function.isName_of_isWritable {f : Function} (h : f.isWritable = true) : Text.isName f.name = true := by
  simp only [Function.isWritable, Bool.and_eq_true] at h
  exact h.1.2

theorem Expr.isUnbroken_spellings {e : Expr} (h : e.isWritable = true) :
    ∀ word ∈ e.spellings, Text.isUnbroken word = true := by
  induction e with
  | number digits pos => exact List.forall_mem_singleton.2 (Text.isUnbroken_number h)
  | var name pos => exact List.forall_mem_singleton.2 (Text.isUnbroken_name h)
  | unary op operand pos ih => exact ih h
  | binary op left right pos ih ih' | assign op left right pos ih ih' =>
    obtain ⟨hleft, hright⟩ := Bool.and_eq_true_iff.1 h
    exact List.forall_mem_append.2 ⟨ih hleft, ih' hright⟩

mutual

theorem Stmt.isUnbroken_spellings : ∀ {s : Stmt}, s.isWritable = true →
    ∀ word ∈ s.spellings, Text.isUnbroken word = true
  | .block _ _, h => Stmt.isUnbroken_spellingsAll h
  | .returns _ _, h => Expr.isUnbroken_spellings h
  | .expr _ _, h => Expr.isUnbroken_spellings h
  | .declare _ _ none _, _ => List.forall_mem_nil _
  | .declare _ _ (some _) _, h => Expr.isUnbroken_spellings (Bool.and_eq_true_iff.1 h).2

theorem Stmt.isUnbroken_spellingsAll : ∀ {body : List Stmt}, Stmt.areWritable body = true →
    ∀ word ∈ Stmt.spellingsAll body, Text.isUnbroken word = true
  | [], _ => List.forall_mem_nil _
  | _ :: _, h =>
    have ⟨hs, hmore⟩ := Bool.and_eq_true_iff.1 h
    List.forall_mem_append.2 ⟨Stmt.isUnbroken_spellings hs, Stmt.isUnbroken_spellingsAll hmore⟩

end

namespace Lowering

/-- Words without a space or a newline in them. -/
def Unbroken (word : String) : Prop :=
  Text.isUnbroken word = true

theorem Fault.Stops.newline_notMem {fault : Fault} (h : fault.Stops Unbroken) : '\n' ∉ fault.message.toList := by
  cases fault with
  | undefined name pos =>
    change '\n' ∉ ("undefined variable '" ++ name ++ "'").toList
    rw [String.toList_append, String.toList_append, List.mem_append, List.mem_append]
    exact not_or.2 ⟨not_or.2 ⟨by decide, Text.newline_notMem h⟩, by decide⟩
  | noLabel => decide
  | redefined | notAssignable => exact h.elim

theorem Works.isLegible {D : Int → Prop} {i : Instruction} (h : Works Unbroken D i) : i.isLegible = true := by
  obtain ⟨hwork, hknown⟩ := h
  have hoperands : ∀ op ∈ i.operands, op.isLegible = true := by
    intro op hop
    have hop := hknown op hop
    cases op with
    | literal digits => exact hop
    | reg | imm | mem => rfl
  cases i <;> simp_all [Instruction.isWork, Instruction.operands, Instruction.isLegible]

theorem Plain.isLegible {i : Instruction} (h : Plain Unbroken i) : i.isLegible = true := by
  rcases h with h | h
  · exact h.isLegible
  · revert i
    decide

/-- The labels that woven code takes are names. -/
theorem Thread.isLegible {i : Instruction} (h : Thread i) : i.isLegible = true := by
  cases h with
  | push | pop => rfl
  | label n | jump n | branch _ n => exact Labels.isName_name n
  | work h => exact Works.isLegible (D := fun _ => True) h.of_false

/-- The lines in front of a function name it. -/
theorem isLegible_globl {name : String} (h : Text.isName name = true) :
    (Instruction.directive (".globl " ++ name)).isLegible = true := by
  have htext : (".globl " ++ name).toList = ".globl ".toList ++ name.toList := String.toList_append
  rw [Instruction.isLegible, htext, Bool.and_eq_true, decide_eq_true_iff, List.mem_append]
  exact ⟨rfl, not_or.2 ⟨by decide, Text.newline_notMem_name h⟩⟩

/-- The line in place of a function says why. -/
theorem isLegible_aborted {name : String} {fault : Fault} (h : Text.isName name = true)
    (hfault : '\n' ∉ fault.message.toList) :
    (Instruction.comment (name ++ " aborted: " ++ fault.message)).isLegible = true := by
  rw [Instruction.isLegible, decide_eq_true_iff, String.toList_append, String.toList_append, List.mem_append,
    List.mem_append]
  exact not_or.2 ⟨not_or.2 ⟨Text.newline_notMem_name h, by decide⟩, hfault⟩

/-- Also a function that has to stop leaves lines that can be read. -/
theorem isLegible_of_mem_function {f : Function} (h : f.isWritable = true) (l : Labels) :
    ∀ i ∈ (function f l).code, i.isLegible = true := by
  have hname := Function.isName_of_isWritable h
  rcases function_ends f (Stmt.isUnbroken_spellingsAll (Bool.and_eq_true_iff.1 h).2) l with
    ⟨code, faults, k, hrun, hcode, -⟩ | ⟨fault, faults, k, hrun, hstops, -⟩
  · have hentry : ∀ i ∈ entry f, i.isLegible = true := by
      refine List.forall_mem_cons.2 ⟨isLegible_globl hname, List.forall_mem_cons.2 ⟨hname, ?_⟩⟩
      exact List.all_eq_true.1 (by decide)
    rw [hrun]
    exact List.forall_mem_append.2 ⟨hentry, hcode.forall_mem (fun _ => Plain.isLegible) fun _ => Thread.isLegible⟩
  · rw [hrun]
    have hcomment := isLegible_aborted hname hstops.newline_notMem
    exact List.forall_mem_cons.2 ⟨hcomment, List.forall_mem_singleton.2 rfl⟩

theorem isLegible_of_mem_functions {fs : List Function} (h : ∀ f ∈ fs, f.isWritable = true) (l : Labels) :
    ∀ i ∈ (functions fs l).code, i.isLegible = true := by
  induction fs generalizing l with
  | nil => exact List.forall_mem_nil _
  | cons f fs ih =>
    obtain ⟨hf, hfs⟩ := List.forall_mem_cons.1 h
    rw [functions_cons]
    exact List.forall_mem_append.2 ⟨isLegible_of_mem_function hf l, ih hfs _⟩

theorem isLegible_of_mem_program {unit : TranslationUnit} (h : unit.isWritable = true) (l : Labels) :
    ∀ i ∈ (program l unit).code, i.isLegible = true := by
  have hheader : ∀ i ∈ header, i.isLegible = true := List.all_eq_true.1 (by decide)
  have hfooter : ∀ i ∈ footer, i.isLegible = true := List.all_eq_true.1 (by decide)
  have hbody := isLegible_of_mem_functions (List.all_eq_true.1 h) l
  exact List.forall_mem_append.2 ⟨List.forall_mem_append.2 ⟨hheader, hbody⟩, hfooter⟩

/-- The text of a unit that was read has one line for each instruction. Two units have the same lines just if they
have the same code, but for values that are spelled as numbers, and this already holds line by line. -/
theorem listing_determines_code (p q : Preprocessor) (l m : Labels) :
    let one := program l (Grammar.parse p.run.1).unit
    let two := program m (Grammar.parse q.run.1).unit
    one.text.toList.splitOn '\n' = one.code.map (·.render.toList) ++ [[]] ∧
      (∀ i ∈ one.code, '\n' ∉ i.render.toList) ∧
      (one.text.toList.splitOn '\n' = two.text.toList.splitOn '\n' ↔
        one.code.map Instruction.spelled = two.code.map Instruction.spelled) ∧
      ∀ i ∈ one.code, ∀ j ∈ two.code, i.render = j.render ↔ i.spelled = j.spelled := by
  intro one two
  have hone := isLegible_of_mem_program (Grammar.isWritable_parse p) l
  have htwo := isLegible_of_mem_program (Grammar.isWritable_parse q) m
  exact ⟨Instruction.splitOn_renderAll hone, fun i hi => Instruction.newline_notMem_render (hone i hi),
    Instruction.lines_eq_iff hone htwo, fun i hi j hj => Instruction.render_eq_iff (hone i hi) (htwo j hj)⟩

/-- A function that returns a number which the entry point has as a value, and one that has to stop. -/
def oneAndNone : Preprocessor :=
  (Job.ofText "int f() \x7b return 1; \x7d int g() \x7b x; \x7d").preprocessor (fun _ => none) []

set_option maxRecDepth 100000 in
theorem oneAndNone_listed :
    let listed := program {} (Grammar.parse oneAndNone.run.1).unit
    let value : Instruction := .movl (.imm 1) accumulator
    let number : Instruction := .movl (.literal "1") accumulator
    let stopped : Instruction := .comment "g aborted: undefined variable 'x'"
    value ∈ listed.code ∧ number ∈ listed.code ∧ stopped ∈ listed.code ∧
      value ≠ number ∧ value.render = number.render ∧ stopped.render ≠ number.render ∧
      listed.text.toList.splitOn '\n' = listed.code.map (·.render.toList) ++ [[]] := by
  intro listed value number stopped
  let span (first last : Nat) : Position := ⟨0, 0, ⟨first, last⟩⟩
  have hunit : (Grammar.parse oneAndNone.run.1).unit =
      ⟨[⟨⟨"int", span 0 3⟩, "f", [],
          ⟨[.returns (.number "1" (span 17 18)) (span 10 16)], span 8 9⟩, span 0 3⟩,
        ⟨⟨"int", span 22 25⟩, "g", [],
          ⟨[.expr (.var "x" (span 32 33)) (span 32 33)], span 30 31⟩, span 22 25⟩]⟩ := by
    unfold span
    cbv
  have hcode : listed.code = header ++
      [.directive ".globl f", .label "f", .pushl (.reg .ebp), .movl (.reg .esp) (.reg .ebp), .blank, number,
        .movl (.reg .ebp) (.reg .esp), .popl .ebp, .ret, .blank, stopped, .blank] ++ footer := by
    unfold listed
    rw [hunit]
    rfl
  obtain ⟨hlines, -, -, halike⟩ := listing_determines_code oneAndNone oneAndNone {} {}
  have hvalue : value ∈ listed.code := by
    rw [hcode]
    decide
  have hnumber : number ∈ listed.code := by
    rw [hcode]
    decide
  have hstopped : stopped ∈ listed.code := by
    rw [hcode]
    decide
  refine ⟨hvalue, hnumber, hstopped, by decide, (halike value hvalue number hnumber).2 rfl, fun hsame => ?_,
    hlines⟩
  exact absurd ((halike stopped hstopped number hnumber).1 hsame) (by decide)

end Lowering

end SmallC
