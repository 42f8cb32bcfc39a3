import Mathlib
import SmallC.Proofs.Lowering.Independence
import SmallC.Proofs.Lowering.Symbols

/-!
# Jumps and their labels

A logical operator takes two labels and defines them behind the jumps to them, so in woven code every jump goes
forward. Labels are never given back, so those of different functions and units are different whatever came of them.
-/
namespace SmallC

open Assembly
open Machine (labels)

/-- The label that an instruction jumps to. -/
def Assembly.Instruction.target? : Instruction → Option String
  | .jmp name => some name
  | .jcc _ name => some name
  | _ => none

theorem Assembly.Labels.exists_of_mem_names {l : Labels} {n : Nat} {name : String} (h : name ∈ l.names n) :
    ∃ i, l.count ≤ i ∧ name = Labels.name i := by
  obtain ⟨i, hi, rfl⟩ := List.mem_map.1 h
  exact ⟨i, (List.mem_range'_1.1 hi).1, rfl⟩

namespace Lowering

open Emit

/-- Every jump goes to a label behind it or to one in `later`. -/
def Forward (later : List String) : List Instruction → Prop
  | [] => True
  | i :: code => (∀ name ∈ i.target?, name ∈ labels code ∨ name ∈ later) ∧ Forward later code

/-- The label that a jump goes to is defined once behind it. -/
def Resolved (code : List Instruction) : Prop :=
  ∀ before i after name, code = before ++ i :: after → i.target? = some name → (labels after).count name = 1

section Code

variable {later mid : List String} {code block : List Instruction}

theorem forward_of_no_jump (h : code.filterMap Instruction.target? = []) : Forward later code := by
  induction code with
  | nil => trivial
  | cons i code ih =>
    have hall := List.filterMap_eq_nil_iff.1 h
    have hi : i.target? = none := hall i List.mem_cons_self
    refine ⟨by simp [hi], ih (List.filterMap_eq_nil_iff.2 fun j hj => ?_)⟩
    exact hall j (List.mem_cons_of_mem i hj)

theorem Forward.append (h : Forward mid code) (h' : Forward later block)
    (hmid : ∀ name ∈ mid, name ∈ labels block ∨ name ∈ later) : Forward later (code ++ block) := by
  induction code with
  | nil => exact h'
  | cons i code ih =>
    refine ⟨fun name hname => ?_, ih h.2⟩
    show name ∈ labels (code ++ block) ∨ name ∈ later
    rw [labels_append, List.mem_append]
    rcases h.1 name hname with hown | hlater
    · exact .inl (.inl hown)
    · exact (hmid name hlater).imp .inr id

theorem resolved_of_forward (h : Forward [] code) (hnodup : (labels code).Nodup) : Resolved code := by
  intro before i after name hsplit hi
  induction before generalizing code with
  | nil =>
    subst hsplit
    have hlater : name ∈ labels after := (h.1 name hi).resolve_right List.not_mem_nil
    have hsub : (labels after).Nodup := hnodup.sublist ((List.sublist_cons_self i after).filterMap _)
    exact List.count_eq_one_of_mem hsub hlater
  | cons j before ih =>
    subst hsplit
    exact ih h.2 (hnodup.sublist ((List.sublist_cons_self j _).filterMap _)) rfl

theorem Resolved.after (h : Resolved code) (hblock : block.filterMap Instruction.target? = []) :
    Resolved (block ++ code) := by
  intro before i after name hsplit hi
  rcases List.append_eq_append_iff.1 hsplit with ⟨between, -, hcode⟩ | ⟨between, hbefore, hcode⟩
  · exact h between i after name hcode hi
  · cases between with
    | nil => exact h [] i after name hcode.symm hi
    | cons j between =>
      obtain ⟨rfl, -⟩ := List.cons.inj hcode
      have hnone := List.filterMap_eq_nil_iff.1 hblock i (by simp [hbefore])
      rw [hnone] at hi
      cases hi

end Code

theorem Works.target?_eq_none {W : String → Prop} {D : Int → Prop} {i : Instruction} (h : Works W D i) :
    i.target? = none := by
  obtain ⟨hwork, -⟩ := h
  cases i <;> first | rfl | cases hwork

theorem Plain.target?_eq_none {W : String → Prop} {i : Instruction} (h : Plain W i) : i.target? = none := by
  rcases h with h | h
  · exact h.target?_eq_none
  · revert i
    decide

/-- Woven code jumps forward, and only to labels of its own. -/
theorem Woven.forward {P : Instruction → Prop} {first n : Nat} {code : List Instruction}
    (h : Woven P first n code) (hP : ∀ i, P i → i.target? = none) : Forward [] code := by
  have hblock : ∀ {later block}, (∀ i ∈ block, P i) → Forward later block := fun hblock =>
    forward_of_no_jump (List.filterMap_eq_nil_iff.2 fun i hi => hP i (hblock i hi))
  induction h with
  | block h => exact hblock h
  | append _ _ ih ih' => exact ih.append ih' nofun
  | @operands first n m right left after r _ _ _ h ih ih' =>
    have hafter : Forward [] (.popl r :: after) := ⟨nofun, hblock h⟩
    have hpushed : Forward [] ([.pushl accumulator] ++ (left ++ (.popl r :: after))) :=
      ⟨nofun, ih'.append hafter nofun⟩
    exact ih.append hpushed nofun
  | @logical first n m left right isAnd _ _ ih ih' =>
    let skipped := Labels.name first
    let finish := Labels.name (first + 1)
    have hend : Forward [] (toBoolean ++ [.label finish]) := forward_of_no_jump rfl
    have hright : Forward [] (right ++ (toBoolean ++ [.label finish])) := ih'.append hend nofun
    -- the branch leaves its second label to what stands behind the right operand
    have hbranch : Forward [finish] (branch isAnd skipped finish ++ [.label skipped]) := by
      cases isAnd <;> simp [branch, Forward, labels, Machine.label?, Instruction.target?]
    have hdefined : finish ∈ labels (right ++ (toBoolean ++ [.label finish])) := by
      rw [labels_append]
      exact List.mem_append_right _ (List.mem_singleton.2 rfl)
    refine ih.append (hbranch.append hright fun name hname => .inl ?_) nofun
    rwa [List.mem_singleton.1 hname]

/-- The labels of a function's code but the one at its entry. -/
def Emission.ownLabels (e : Emission Unit) : List String :=
  (Machine.labels e.code).tail

/-- A function that has to stop leaves no label behind, but the labels it took are gone. -/
theorem function_labels (f : Function) (l : Labels) :
    Resolved (function f l).code ∧
      (labels (function f l).code = [] ∨
        labels (function f l).code = f.name :: (function f l).ownLabels) ∧
      ∃ n, (function f l).labels = l.skip n ∧ (function f l).ownLabels.Subperm (l.names n) := by
  rcases function_ends (W := fun _ => True) f (fun _ _ => trivial) l with ⟨code, faults, k, hrun, hcode, -⟩ |
    ⟨fault, faults, k, hrun, -⟩
  · rw [hrun]
    have hperm := hcode.perm_labels fun i hi => hi.label?_eq_none
    have hforward := hcode.forward fun i hi => hi.target?_eq_none
    have hnodup : (labels code).Nodup := hperm.nodup_iff.2 (l.nodup_names k)
    exact ⟨(resolved_of_forward hforward hnodup).after rfl, .inr rfl, k, rfl, hperm.subperm⟩
  · -- the labels that were taken stay taken, though the comment defines none of them
    rw [hrun]
    exact ⟨resolved_of_forward (forward_of_no_jump rfl) .nil, .inl rfl, k, rfl, List.nil_subperm⟩

theorem functions_labels (fs : List Function) (l : Labels) :
    ∃ n, (functions fs l).labels = l.skip n ∧
      ((emissions l fs).flatMap Emission.ownLabels).Subperm (l.names n) := by
  induction fs generalizing l with
  | nil => exact ⟨0, rfl, List.nil_subperm⟩
  | cons f fs ih =>
    obtain ⟨-, -, n, hn, hown⟩ := function_labels f l
    obtain ⟨m, hm, hrest⟩ := ih (function f l).labels
    rw [hn] at hm hrest
    refine ⟨n + m, ?_, ?_⟩
    · rw [functions_cons, hn, hm, l.skip_skip]
    · rw [emissions, List.flatMap_cons, l.names_add, hn]
      exact hown.append hrest

/-- Units in order, each with the labels that those before it left. -/
def starts (l : Labels) : List TranslationUnit → List (Labels × TranslationUnit)
  | [] => []
  | unit :: units => (l, unit) :: starts (program l unit).labels units

theorem starts_labels (l : Labels) (units : List TranslationUnit) :
    ∃ n, ((starts l units).flatMap fun p =>
      (emissions p.1 p.2.functions).flatMap Emission.ownLabels).Subperm (l.names n) := by
  induction units generalizing l with
  | nil => exact ⟨0, List.nil_subperm⟩
  | cons unit units ih =>
    obtain ⟨n, hn, hown⟩ := functions_labels unit.functions l
    obtain ⟨m, hrest⟩ := ih (program l unit).labels
    have hleft : (program l unit).labels = l.skip n := hn
    refine ⟨n + m, ?_⟩
    rw [hleft] at hrest
    rw [starts, List.flatMap_cons, l.names_add, hleft]
    exact hown.append hrest

theorem mem_emissions {fs : List Function} {l : Labels} {e : Emission Unit} (h : e ∈ emissions l fs) :
    ∃ f ∈ fs, ∃ l', e = function f l' := by
  induction fs generalizing l with
  | nil => cases h
  | cons f fs ih =>
    rcases List.mem_cons.1 h with rfl | h
    · exact ⟨f, List.mem_cons_self, l, rfl⟩
    · obtain ⟨g, hg, l', he⟩ := ih h
      exact ⟨g, List.mem_cons_of_mem f hg, l', he⟩

/-- In the code of each function every jump goes to a label that is defined once behind it. No label beside the
names of functions is defined twice, in any functions of any units, whatever faults these have. -/
theorem jumps_resolved_labels_fresh (l : Labels) (units : List TranslationUnit) :
    (∀ p ∈ starts l units,
      (program p.1 p.2).code = header ++ (emissions p.1 p.2.functions).flatMap Emission.code ++ footer ∧
      ∀ e ∈ emissions p.1 p.2.functions,
        Resolved e.code ∧
        (labels e.code = [] ∨ ∃ f ∈ p.2.functions, labels e.code = f.name :: e.ownLabels) ∧
        ∀ name ∈ e.ownLabels, ∃ n, p.1.count ≤ n ∧ name = Labels.name n) ∧
    ((starts l units).flatMap fun p =>
      (emissions p.1 p.2.functions).flatMap Emission.ownLabels).Nodup := by
  constructor
  · intro p _
    refine ⟨(program_emissions p.1 p.2).1, fun e he => ?_⟩
    obtain ⟨f, hf, l', rfl⟩ := mem_emissions he
    obtain ⟨hresolved, hlabels, -⟩ := function_labels f l'
    obtain ⟨n, -, hown⟩ := functions_labels p.2.functions p.1
    refine ⟨hresolved, hlabels.imp id fun hname => ⟨f, hf, hname⟩, fun name hname => ?_⟩
    exact Labels.exists_of_mem_names (hown.subset (List.mem_flatMap.2 ⟨_, he, hname⟩))
  · obtain ⟨n, own, hperm, hsub⟩ := starts_labels l units
    exact hperm.nodup_iff.1 ((l.nodup_names n).sublist hsub)

end Lowering

end SmallC
