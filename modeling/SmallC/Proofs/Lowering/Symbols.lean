import Mathlib
import SmallC.Proofs.Lowering.Faults

/-!
# The symbols of the assembly

The entry point, the functions of a unit and the labels taken for its logical operators are defined in one
name space. Labels are numbered, so they differ from one another and from the entry point. The names of
functions are not checked against anything: code defines a symbol twice exactly if a function is named like
another one, like the entry point or like a label.
-/
namespace SmallC

open Assembly
open Machine (labels)

namespace Assembly.Labels

theorem name_injective {i j : Nat} (h : name i = name j) : i = j := by
  have hrepr : Nat.repr i = Nat.repr j := (String.append_right_inj "_label").1 h
  have hdigits : Nat.toDigits 10 i = Nat.toDigits 10 j := by
    have hlist := congrArg String.toList hrepr
    rwa [Nat.toList_repr, Nat.toList_repr] at hlist
  calc
    i = Nat.ofDigitChars 10 (Nat.toDigits 10 i) 0 := Nat.ofDigitChars_ten_toDigits.symm
    _ = Nat.ofDigitChars 10 (Nat.toDigits 10 j) 0 := by rw [hdigits]
    _ = j := Nat.ofDigitChars_ten_toDigits

theorem name_ne_start (i : Nat) : name i ≠ "_start" := by
  intro h
  have hlist := congrArg (·.toList[1]?) h
  simp [name] at hlist

theorem nodup_names (l : Labels) (n : Nat) : (l.names n).Nodup := by
  have hrange : (List.range' l.count n).Nodup := List.nodup_range' 1
  exact List.Pairwise.map name (fun _ _ hne heq => hne (name_injective heq)) hrange

theorem start_notMem_names (l : Labels) (n : Nat) : "_start" ∉ l.names n := by
  intro h
  obtain ⟨i, -, hi⟩ := List.mem_map.1 h
  exact name_ne_start i hi

end Assembly.Labels

namespace Lowering

theorem Works.label?_eq_none {W : String → Prop} {D : Int → Prop} {i : Instruction} (h : Works W D i) :
    Machine.label? i = none := by
  obtain ⟨hwork, -⟩ := h
  cases i <;> first | rfl | cases hwork

theorem Plain.label?_eq_none {W : String → Prop} {i : Instruction} (h : Plain W i) : Machine.label? i = none := by
  rcases h with h | h
  · exact h.label?_eq_none
  · revert i
    decide

/-- Woven code defines the labels that it takes, each of them once. -/
theorem Woven.perm_labels {P : Instruction → Prop} {first n : Nat} {code : List Instruction}
    (h : Woven P first n code) (hP : ∀ i, P i → Machine.label? i = none) :
    (labels code).Perm ((List.range' first n).map Labels.name) := by
  have hblock : ∀ {block : List Instruction}, (∀ i ∈ block, P i) → labels block = [] := fun hblock =>
    List.filterMap_eq_nil_iff.2 fun i hi => hP i (hblock i hi)
  induction h with
  | block h => exact .of_eq (hblock h)
  | append _ _ ih ih' =>
    rw [labels_append, ← List.range'_append_1, List.map_append]
    exact ih.append ih'
  | @operands first n m right left after r _ _ _ h ih ih' =>
    have hnone : labels after = [] := hblock h
    have hafter : labels (.popl r :: after) = [] := hnone
    have hpush : labels [.pushl accumulator] = [] := rfl
    rw [labels_append, labels_append, labels_append, hafter, hpush, List.nil_append, List.append_nil,
      ← List.range'_append_1, List.map_append]
    exact ih.append ih'
  | @logical first n m left right isAnd _ _ ih ih' =>
    have hbranch : labels (branch isAnd (Labels.name first) (Labels.name (first + 1))) = [] := by
      cases isAnd <;> rfl
    have htwo : (List.range' first 2).map Labels.name = [Labels.name first, Labels.name (first + 1)] := rfl
    rw [← List.range'_append_1, ← List.range'_append_1, List.map_append, List.map_append, htwo, List.append_assoc]
    simp only [labels_append, hbranch, List.nil_append]
    -- the label of the right operand stands behind the left one, the other behind both
    refine List.perm_middle.trans (.cons _ ?_)
    change (labels left ++ (labels right ++ [Labels.name (first + 1)])).Perm _
    rw [← List.append_assoc]
    refine (List.perm_append_singleton _ _).trans (.cons _ ?_)
    rw [Nat.add_assoc] at ih'
    exact ih.append ih'

/-- The symbols of a function without faults are its name and the labels that it takes. -/
theorem labels_function {f : Function} {l : Labels} (h : (function f l).faults = []) :
    (labels (function f l).code).Perm (f.name :: l.names (2 * f.logicals)) := by
  rcases function_ends (W := fun _ => True) f (fun _ _ => trivial) l with ⟨code, faults, k, hrun, hcode, htally⟩ |
    ⟨fault, faults, k, hrun, -⟩
  · rw [hrun] at h ⊢
    rw [htally.taken h] at hcode
    exact (hcode.perm_labels fun i hi => hi.label?_eq_none).cons f.name
  · rw [hrun] at h
    exact absurd h (List.append_ne_nil_of_right_ne_nil _ (List.cons_ne_nil _ _))

theorem labels_functions {fs : List Function} {l : Labels} (h : (functions fs l).faults = []) :
    (labels (functions fs l).code).Perm
      (fs.map Function.name ++ l.names (2 * (fs.map Function.logicals).sum)) := by
  induction fs generalizing l with
  | nil => exact .nil
  | cons f fs ih =>
    rw [functions_cons] at h ⊢
    obtain ⟨hown, hrest⟩ := List.append_eq_nil_iff.1 h
    have htaken := (function_faultless f l).2 hown
    rw [htaken] at hrest ⊢
    rw [labels_append, List.map_cons, List.map_cons, List.sum_cons, Nat.mul_add, l.names_add]
    refine ((labels_function hown).append (ih hrest)).trans (.cons f.name ?_)
    exact List.perm_append_comm_assoc ..

/-- The symbols of a unit without faults: the entry point, its functions, and its labels. -/
theorem labels_program {l : Labels} {unit : TranslationUnit} (h : (program l unit).faults = []) :
    (labels (program l unit).code).Perm
      ("_start" :: (unit.functions.map Function.name ++ l.names (2 * unit.logicals))) := by
  have hperm := labels_functions h
  have hheader : labels header = ["_start"] := rfl
  have hfooter : labels footer = [] := rfl
  unfold program
  dsimp only
  rw [labels_append, labels_append, hheader, hfooter, List.append_nil]
  exact hperm.cons _

/-- Symbols are defined once exactly if no function is named like another one, like the entry point or
like a label that is taken. -/
theorem nodup_labels_program {l : Labels} {unit : TranslationUnit} (h : (program l unit).faults = []) :
    (labels (program l unit).code).Nodup ↔
      (unit.functions.map Function.name).Nodup ∧ "_start" ∉ unit.functions.map Function.name ∧
        ∀ name ∈ l.names (2 * unit.logicals), name ∉ unit.functions.map Function.name := by
  rw [(labels_program h).nodup_iff, List.nodup_cons, List.nodup_append, List.mem_append,
    or_iff_left (l.start_notMem_names _)]
  constructor
  · rintro ⟨hstart, hnames, -, hapart⟩
    exact ⟨hnames, hstart, fun name hlabel hname => hapart name hname name hlabel rfl⟩
  · rintro ⟨hnames, hstart, hapart⟩
    refine ⟨hstart, hnames, l.nodup_names _, fun name hname label hlabel heq => ?_⟩
    exact hapart label hlabel (heq ▸ hname)

end Lowering

/-- The unit that is read from a job. -/
def Job.unit (job : Job) (load : Path → Option String) (files : List SourceFile) : TranslationUnit :=
  (Grammar.parse (job.preprocessor load files).run.1).unit

/-- The assembly of a job is the code of its unit, which has no fault. -/
theorem assembly_eq {style : Style} {load : Path → Option String} {log : Log} {job : Job}
    (h : (compile style load log job).assembly.isSome = true) :
    (compile style load log job).assembly =
        some (Lowering.program {} (job.unit load log.files)).text ∧
      (Lowering.program {} (job.unit load log.files)).faults = [] := by
  unfold compile at h ⊢
  dsimp only at h ⊢
  split at h
  · cases h
  · next hparse =>
    rw [if_neg hparse]
    dsimp only at h ⊢
    split at h
    · cases h
    · next hfault =>
      rw [if_neg hfault]
      have hproblems := (Lowering.Program.hasFault_eq_false_iff _).1 (Bool.eq_false_iff.2 hfault)
      exact ⟨rfl, List.map_eq_nil_iff.1 hproblems⟩

/-- The symbols of assembly are the entry point, the functions of the unit, and two labels for each logical
operator in it. They are defined once exactly if no function is named like another one, like the entry
point or like one of these labels. -/
theorem assembly_symbols_unique_iff (style : Style) (load : Path → Option String) (log : Log) (job : Job)
    (h : (compile style load log job).assembly.isSome = true) :
    let unit := job.unit load log.files
    let code := (Lowering.program {} unit).code
    let names := unit.functions.map Function.name
    let taken := (List.range (2 * unit.logicals)).map Labels.name
    (compile style load log job).assembly = some (Instruction.renderAll code) ∧
      (labels code).Perm ("_start" :: (names ++ taken)) ∧
      ((labels code).Nodup ↔ names.Nodup ∧ "_start" ∉ names ∧ ∀ label ∈ taken, label ∉ names) := by
  intro unit code names taken
  obtain ⟨htext, hfaults⟩ := assembly_eq h
  have htaken : taken = Labels.names {} (2 * unit.logicals) := by
    unfold taken
    rw [List.range_eq_range']
    rfl
  rw [htaken]
  exact ⟨htext, Lowering.labels_program hfaults, Lowering.nodup_labels_program hfaults⟩

/-- A function with the name of a label that its own operator takes. -/
def ownLabel : Job :=
  .ofText "int _label1() { 1 && 2; }"

set_option maxRecDepth 100000 in
theorem ownLabel_defined_twice :
    (compile .silent (fun _ => none) {} ownLabel).assembly.isSome = true ∧
      (labels (Lowering.program {} (ownLabel.unit (fun _ => none) [])).code).Perm
        ["_start", "_label1", "_label0", "_label1"] := by
  obtain ⟨hsome, hnames, hlogicals⟩ :
      (compile .silent (fun _ => none) {} ownLabel).assembly.isSome = true ∧
        (ownLabel.unit (fun _ => none) []).functions.map Function.name = ["_label1"] ∧
        (ownLabel.unit (fun _ => none) []).logicals = 1 := by cbv
  obtain ⟨-, hsymbols, -⟩ := assembly_symbols_unique_iff .silent (fun _ => none) {} ownLabel hsome
  refine ⟨hsome, ?_⟩
  rwa [hnames, hlogicals] at hsymbols

/-- Two functions of one name. -/
def twoMains : Job :=
  .ofText "int main() {} int main() {}"

set_option maxRecDepth 100000 in
theorem twoMains_defined_twice :
    ∃ code, (compile .silent (fun _ => none) {} twoMains).assembly = some (Instruction.renderAll code) ∧
      labels code = ["_start", "main", "main"] := by
  obtain ⟨hsome, hlabels⟩ :
      (compile .silent (fun _ => none) {} twoMains).assembly.isSome = true ∧
        labels (Lowering.program {} (twoMains.unit (fun _ => none) [])).code =
          ["_start", "main", "main"] := by cbv
  exact ⟨_, (assembly_eq hsome).1, hlabels⟩

end SmallC
