import SmallC.Proofs.Lowering.Faults
import SmallC.Proofs.Lowering.Parallel

/-!
# Functions are lowered apart

A unit is lowered function by function. What comes of a function depends on the function alone, up to the
numbers of its labels: these go on from where the function before it stopped. A function that uses a variable
without a slot leaves a comment and nothing else, but keeps the labels it took. So a function that is taken
out of a unit moves the labels of those behind it and changes nothing else about them.
-/
namespace SmallC

namespace Assembly

theorem Labels.ne_name_of_number? {symbol : String} (h : number? symbol = none) (n : Nat) :
    symbol ≠ name n := by
  intro hname
  rw [hname, number?_name] at h
  exact nomatch h

theorem Instruction.map_renumber_zero (code : List Instruction) : code.map (·.renumber 0) = code := by
  simp only [renumber_zero, List.map_id']

end Assembly

namespace Lowering

open Assembly Emit

variable {f : Function} {fs : List Function} {l l' : Labels} {d : Nat} {code : List Instruction}
  {faults : List Fault}

theorem functionBody_agree (hname : ∀ n, f.name ≠ Labels.name n) {limit : Nat} (hlimit : l.limit ≤ limit)
    (h : (functionBody ({} : Slots) f (l.skip d)).result ≠ .error .noLabel) :
    ∃ result code faults n,
      functionBody ({} : Slots) f (l.skip d) =
        ⟨result, code.map (·.renumber d), faults, (l.skip n).skip d⟩ ∧
      functionBody ({} : Slots) f (l.within limit) = ⟨result, code, faults, (l.skip n).within limit⟩ := by
  let c : Change := { distance := d }
  have hfault : c.fault = id := funext Fault.relocate_id
  have hbody := parallel_functionBody (c := c) (mirrors_eq rfl) rfl (Labels.renumber_of_ne_name d hname)
  rw [f.relocate_id] at hbody
  obtain ⟨result, result', code, faults, n, hx, hy, halike⟩ := hbody l limit (Nat.le_add_right_of_le hlimit) (.inr h)
  rw [Change.instruction_renumber rfl, hfault, List.map_id] at hx
  refine ⟨result, code, faults, n, hx, ?_⟩
  match result, result', halike with
  | .ok _, .ok _, _ => exact hy
  | .error _, .error _, hsame =>
    rw [hsame, hfault]
    exact hy

/-- A function from `d` labels further on, and under a limit that may be lower. -/
theorem function_agree (hname : ∀ n, f.name ≠ Labels.name n) {limit : Nat} (hlimit : l.limit ≤ limit)
    (h : .noLabel ∉ (function f (l.skip d)).faults) :
    ∃ code faults n,
      function f (l.skip d) = ⟨.ok (), code.map (·.renumber d), faults, (l.skip n).skip d⟩ ∧
      function f (l.within limit) = ⟨.ok (), code, faults, (l.skip n).within limit⟩ := by
  have hres : (functionBody ({} : Slots) f (l.skip d)).result ≠ .error .noLabel := by
    intro hres
    rcases hbody : functionBody ({} : Slots) f (l.skip d) with ⟨result, code, faults, l'⟩
    rw [hbody] at hres
    cases hres
    rw [function_of_error hbody] at h
    exact h (List.mem_append_right _ (List.mem_singleton.2 rfl))
  obtain ⟨result, code, faults, n, hx, hy⟩ := functionBody_agree hname hlimit hres
  cases result with
  | ok u => exact ⟨code, faults, n, function_of_ok hx, function_of_ok hy⟩
  | error fault =>
    let aborted : List Instruction := [.comment (f.name ++ " aborted: " ++ fault.message), .blank]
    exact ⟨aborted, faults ++ [fault], n, function_of_error hx, function_of_error hy⟩

/-- Where two runs of a function start decides the numbers of the labels in its code, and nothing else. -/
theorem function_renumbered (hname : ∀ n, f.name ≠ Labels.name n) {l₁ l₂ : Labels}
    (hd : l₂.count = l₁.count + d) (h₁ : .noLabel ∉ (function f l₁).faults)
    (h₂ : .noLabel ∉ (function f l₂).faults) :
    (function f l₂).code = (function f l₁).code.map (·.renumber d) ∧
      (function f l₂).faults = (function f l₁).faults := by
  -- both runs are compared with one from `l₁.count` under the greater limit
  let limit := max l₁.limit l₂.limit
  have hl₂ : l₂ = (l₁.within l₂.limit).skip d := by
    rw [Labels.within, Labels.skip, ← hd]
  obtain ⟨code₁, faults₁, _, hown₁, hboth₁⟩ :=
    function_agree (d := 0) (l := l₁) hname (Nat.le_max_left _ _ : _ ≤ limit) h₁
  obtain ⟨code₂, faults₂, _, hown₂, hboth₂⟩ :=
    function_agree (d := d) (l := l₁.within l₂.limit) hname (Nat.le_max_right _ _ : _ ≤ limit) (hl₂ ▸ h₂)
  have hboth := hboth₁.symm.trans hboth₂
  have hcode : code₁ = code₂ := congrArg Emission.code hboth
  have hfaults : faults₁ = faults₂ := congrArg Emission.faults hboth
  have hown₁ : function f l₁ = _ := hown₁
  rw [hl₂, hown₂, hown₁, Instruction.map_renumber_zero, hcode, hfaults]
  exact ⟨rfl, rfl⟩

/-- A function stops at the first variable without a slot. -/
theorem function_aborted {name : String} {pos : Position} (h : .undefined name pos ∈ (function f l).faults) :
    (function f l).code =
        [.comment (f.name ++ " aborted: " ++ (Fault.undefined name pos).message), .blank] ∧
      (function f l).faults.getLast? = some (.undefined name pos) := by
  rcases function_ends (W := fun _ => True) f (fun _ _ => trivial) l with ⟨code, faults, k, hrun, -, htally⟩ |
    ⟨fault, faults, k, hrun, -, hgoesOn, -⟩
  · rw [hrun] at h
    exact nomatch htally.goesOn _ h
  · rw [hrun] at h ⊢
    rcases List.mem_append.1 h with h | h
    · exact nomatch hgoesOn _ h
    · rw [← List.mem_singleton.1 h]
      exact ⟨rfl, List.getLast?_concat⟩

/-- What comes of each function, with the labels that those before it left. -/
def emissions (l : Labels) : List Function → List (Emission Unit)
  | [] => []
  | f :: fs => function f l :: emissions (function f l).labels fs

/-- What is emitted from `d` labels further on. -/
def Emission.renumber {α : Type} (d : Nat) (e : Emission α) : Emission α :=
  { e with code := e.code.map (·.renumber d), labels := e.labels.skip d }

theorem functions_emissions (fs : List Function) (l : Labels) :
    (functions fs l).code = (emissions l fs).flatMap Emission.code ∧
      (functions fs l).faults = (emissions l fs).flatMap Emission.faults := by
  induction fs generalizing l with
  | nil => exact ⟨rfl, rfl⟩
  | cons f fs ih =>
    obtain ⟨hcode, hfaults⟩ := ih (function f l).labels
    rw [functions_cons, emissions, List.flatMap_cons, List.flatMap_cons, hcode, hfaults]
    exact ⟨rfl, rfl⟩

theorem program_emissions (l : Labels) (unit : TranslationUnit) :
    (program l unit).code = header ++ (emissions l unit.functions).flatMap Emission.code ++ footer ∧
      (program l unit).faults = (emissions l unit.functions).flatMap Emission.faults := by
  obtain ⟨hcode, hfaults⟩ := functions_emissions unit.functions l
  exact ⟨by rw [program, hcode], hfaults⟩

theorem emissions_append (fs gs : List Function) (l : Labels) :
    emissions l (fs ++ gs) = emissions l fs ++ emissions (functions fs l).labels gs := by
  induction fs generalizing l with
  | nil => rfl
  | cons f fs ih => rw [List.cons_append, emissions, ih, emissions, functions_cons, List.cons_append]

theorem emissions_renumbered (hnames : ∀ f ∈ fs, ∀ n, f.name ≠ Labels.name n)
    (h : ∀ e ∈ emissions (l.skip d) fs, .noLabel ∉ e.faults) :
    emissions (l.skip d) fs = (emissions l fs).map (·.renumber d) := by
  induction fs generalizing l with
  | nil => rfl
  | cons f fs ih =>
    obtain ⟨hname, hnames⟩ := List.forall_mem_cons.1 hnames
    rw [emissions] at h
    obtain ⟨hown, hrest⟩ := List.forall_mem_cons.1 h
    obtain ⟨code, faults, n, hx, hy⟩ := function_agree hname (Nat.le_refl _) hown
    have hy : function f l = ⟨.ok (), code, faults, l.skip n⟩ := hy
    rw [hx] at hrest
    rw [emissions, emissions, hx, hy, List.map_cons, ih hnames hrest]
    rfl

/-- The functions behind one that is taken out keep all but the numbers of their labels. -/
theorem emissions_without {before after : List Function}
    (hnames : ∀ g ∈ f :: after, ∀ n, g.name ≠ Labels.name n)
    (h : ∀ e ∈ emissions l (before ++ f :: after), .noLabel ∉ e.faults) :
    ∃ own rest d,
      emissions l (before ++ f :: after) = emissions l before ++ own :: rest.map (Emission.renumber d) ∧
      emissions l (before ++ after) = emissions l before ++ rest := by
  obtain ⟨hname, hnames⟩ := List.forall_mem_cons.1 hnames
  rw [emissions_append, emissions] at h
  let start := (functions before l).labels
  have hown : .noLabel ∉ (function f (start.skip 0)).faults :=
    h (function f start) (List.mem_append_right _ List.mem_cons_self)
  obtain ⟨code, faults, d, hx, -⟩ := function_agree hname (Nat.le_refl _) hown
  have hlabels : (function f start).labels = start.skip d := congrArg Emission.labels hx
  have hrest : emissions (start.skip d) after = (emissions start after).map (·.renumber d) := by
    refine emissions_renumbered hnames fun e he => h e ?_
    refine List.mem_append_right _ (List.mem_cons_of_mem _ ?_)
    rwa [hlabels]
  refine ⟨function f start, emissions start after, d, ?_, emissions_append before after l⟩
  rw [emissions_append, emissions, hlabels, hrest]

/-- The code of a unit has a part for each function, which depends on the others in the numbers of its labels only.
A variable without a slot leaves a comment for a part, and is the last fault of its function. -/
theorem functions_lowered_apart {l : Labels} {unit : TranslationUnit}
    (hnames : ∀ f ∈ unit.functions, ∀ n, f.name ≠ Labels.name n)
    (hlabels : .noLabel ∉ (program l unit).faults) :
    ((program l unit).code = header ++ (emissions l unit.functions).flatMap Emission.code ++ footer ∧
      (program l unit).faults = (emissions l unit.functions).flatMap Emission.faults) ∧
    (∀ f ∈ unit.functions, ∀ (l₁ l₂ : Labels) (d : Nat), l₂.count = l₁.count + d →
      .noLabel ∉ (function f l₁).faults → .noLabel ∉ (function f l₂).faults →
      (function f l₂).code = (function f l₁).code.map (·.renumber d) ∧
        (function f l₂).faults = (function f l₁).faults) ∧
    (∀ f ∈ unit.functions, ∀ (l₁ : Labels) (name : String) (pos : Position),
      .undefined name pos ∈ (function f l₁).faults →
      (function f l₁).code =
          [.comment (f.name ++ " aborted: " ++ (Fault.undefined name pos).message), .blank] ∧
        (function f l₁).faults.getLast? = some (.undefined name pos)) ∧
    ∀ before f after, unit.functions = before ++ f :: after →
      ∃ own rest d,
        emissions l unit.functions = emissions l before ++ own :: rest.map (Emission.renumber d) ∧
        (program l ⟨before ++ after⟩).code =
          header ++ (emissions l before ++ rest).flatMap Emission.code ++ footer ∧
        (program l ⟨before ++ after⟩).faults = (emissions l before ++ rest).flatMap Emission.faults := by
  refine ⟨program_emissions l unit, ?_, ?_, ?_⟩
  · intro f hf l₁ l₂ d hd h₁ h₂
    exact function_renumbered (hnames f hf) hd h₁ h₂
  · intro f _ l₁ name pos h
    exact function_aborted h
  · intro before f after hunit
    have hroom : ∀ e ∈ emissions l (before ++ f :: after), .noLabel ∉ e.faults := by
      intro e he hfault
      rw [(program_emissions l unit).2, hunit] at hlabels
      exact hlabels (List.mem_flatMap.2 ⟨e, he, hfault⟩)
    rw [hunit] at hnames
    obtain ⟨own, rest, d, hwith, hwithout⟩ :=
      emissions_without (fun g hg => hnames g (List.mem_append_right _ hg)) hroom
    obtain ⟨hcode, hfaults⟩ := program_emissions l ⟨before ++ after⟩
    refine ⟨own, rest, d, ?_, ?_, ?_⟩
    · rw [hunit, hwith]
    · rw [hcode, hwithout]
    · rw [hfaults, hwithout]

/-- A function that takes labels and then uses a variable that it does not declare, between two others. -/
def brokenBetween : TranslationUnit :=
  let here : Position := ⟨0, 0, ⟨0, 0⟩⟩
  let named (name : String) (body : List Stmt) : Function := ⟨⟨"int", here⟩, name, [], ⟨body, here⟩, here⟩
  let logical (op : BinaryOp) : Expr := .binary op (.number "1" here) (.number "2" here) here
  ⟨[named "first" [.returns (logical .logAnd) here],
    named "broken" [.expr (logical .logOr) here, .returns (.var "x" here) here],
    named "last" [.returns (logical .logAnd) here]]⟩

theorem brokenBetween_lowered_apart :
    (∀ f ∈ brokenBetween.functions, ∀ n, f.name ≠ Labels.name n) ∧
    .noLabel ∉ (program {} brokenBetween).faults ∧
    ∃ first broken last, brokenBetween.functions = [first, broken, last] ∧
      (function broken {}).code = [.comment "broken aborted: undefined variable 'x'", .blank] ∧
      ∃ own rest d,
        emissions {} brokenBetween.functions = emissions {} [first] ++ own :: rest.map (Emission.renumber d) ∧
        (program {} ⟨[first, last]⟩).code =
          header ++ (emissions {} [first] ++ rest).flatMap Emission.code ++ footer := by
  have hnames : ∀ f ∈ brokenBetween.functions, ∀ n, f.name ≠ Labels.name n := by
    have hnone : ∀ f ∈ brokenBetween.functions, Labels.number? f.name = none := by decide +kernel
    exact fun f hf => Labels.ne_name_of_number? (hnone f hf)
  have hfaults : (program {} brokenBetween).faults = [.undefined "x" ⟨0, 0, ⟨0, 0⟩⟩] := rfl
  have hlabels : .noLabel ∉ (program {} brokenBetween).faults := by
    rw [hfaults]
    decide
  obtain ⟨-, -, haborted, hwithout⟩ := functions_lowered_apart hnames hlabels
  refine ⟨hnames, hlabels, _, _, _, rfl, ?_, ?_⟩
  · exact (haborted _ (List.mem_cons_of_mem _ List.mem_cons_self) {} "x" ⟨0, 0, ⟨0, 0⟩⟩
      List.mem_cons_self).1
  · obtain ⟨own, rest, d, hwith, hcode, -⟩ := hwithout [_] _ [_] rfl
    exact ⟨own, rest, d, hwith, hcode⟩

end Lowering

end SmallC
