import SmallC.Proofs.Lowering.Account
import SmallC.Proofs.Reporting

/-!
# Which units have faults

Statements, functions and units are accounted for in the same way as expressions. A unit is lowered without
a fault exactly if each of its functions keeps to its scope and there are two labels left for each logical
operator in it.
-/
namespace SmallC

namespace Stmt

mutual

/-- The numbers and names in the expressions of the statement. -/
def spellings : Stmt → List String
  | block body _ => spellingsAll body
  | returns value _ => value.spellings
  | expr value _ => value.spellings
  | declare _ _ init _ => (init.map Expr.spellings).getD []

def spellingsAll : List Stmt → List String
  | [] => []
  | s :: more => s.spellings ++ spellingsAll more

end

end Stmt

namespace Lowering

open Assembly Emit

variable {W : String → Prop} {slots : Slots} {past : List Mention}

/-- What the code of statements is made of: work, and the instructions that declare a variable and leave. -/
def Plain (W : String → Prop) (i : Instruction) : Prop :=
  Works W (fun _ => True) i ∨ i ∈ .pushl accumulator :: .blank :: leave

theorem plain_leave : ∀ i ∈ leave, Plain W i :=
  fun _ hi => .inr (List.mem_cons_of_mem _ (List.mem_cons_of_mem _ hi))

theorem Tracks.setting (h : Tracks slots past) : Setting W (fun _ => True) (Plain W) slots past :=
  ⟨h, fun _ _ _ => trivial, fun _ => .inl⟩

theorem account_plain (h : Tracks slots past) (e : Expr) (hW : ∀ word ∈ e.spellings, W word) :
    Account W (Plain W) (expr slots e) (Scoped past e.mentions) (2 * e.logicals) fun _ => True :=
  account_expr h.setting e hW (.inr trivial)

theorem account_initial (h : Tracks slots past) (init : Option Expr)
    (hW : ∀ word ∈ (init.map Expr.spellings).getD [], W word) :
    Account W (Plain W) (initial slots init) (Scoped past ((init.map Expr.mentions).getD []))
      (2 * (init.map Expr.logicals).getD 0) fun _ => True := by
  cases init with
  | none => exact (account_pure trivial).of_iff (iff_of_true trivial scoped_nil) rfl
  | some value => exact account_plain h value hW

/-- A lowering after which the same variables are known. -/
theorem Emit.Account.keeping {P : Instruction → Prop} {x : Emit Unit} {ok : Prop} {n : Nat} {p : Unit → Prop}
    {ms : List Mention} (h : Account W P x ok n p) (hs : Tracks slots ms) :
    Account W P (do x; Pure.pure slots : Emit Slots) ok n fun slots' => Tracks slots' ms := by
  have hpure : Account W P (Pure.pure slots : Emit Slots) True 0 fun slots' => Tracks slots' ms :=
    account_pure hs
  exact (h.bind fun _ _ => hpure).of_iff (Iff.of_eq (and_true ok)) rfl

theorem account_returns (h : Tracks slots past) (value : Expr) (pos : Position)
    (hW : ∀ word ∈ value.spellings, W word) :
    Account W (Plain W) (stmt slots (.returns value pos)) (Scoped past value.mentions) (2 * value.logicals)
      fun slots' => Tracks slots' (past ++ value.mentions) := by
  have hstays := (account_emit (W := W) (plain_leave (W := W))).keeping (h.expr value)
  rw [stmt]
  exact ((account_plain h value hW).bind fun _ _ => hstays).of_iff (Iff.of_eq (and_true _)) rfl

/-- A declaration checks the initial value before its name is known. -/
theorem account_declare (h : Tracks slots past) (type : TypeName) (name : String)
    (init : Option Expr) (pos : Position) (hW : ∀ word ∈ (init.map Expr.spellings).getD [], W word) :
    Account W (Plain W) (stmt slots (.declare type name init pos))
      (Scoped past (Stmt.declare type name init pos).mentions)
      (2 * (Stmt.declare type name init pos).logicals)
      fun slots' => Tracks slots' (past ++ (Stmt.declare type name init pos).mentions) := by
  have hinit : ∀ other, Mention.declaration other ∉ (init.map Expr.mentions).getD [] := by
    cases init with
    | none => exact fun _ hmem => nomatch hmem
    | some value => exact value.declaration_notMem
  have hscoped : Scoped past (Stmt.declare type name init pos).mentions ↔
      Scoped past ((init.map Expr.mentions).getD []) ∧ name ∉ slots.names := by
    rw [Stmt.mentions, scoped_append_uses hinit, scoped_cons, h name]
    exact and_congr_right fun _ => and_iff_left scoped_nil
  have htracks : Tracks (slots.declare name) (past ++ (Stmt.declare type name init pos).mentions) := by
    rw [Stmt.mentions, ← List.append_assoc]
    exact (h.uses hinit).declare name
  rw [stmt]
  split
  · next hsome =>
    have hmem : name ∈ slots.names := Slots.isSome_offset?_iff.1 hsome
    have hbroken : ¬ Scoped past (Stmt.declare type name init pos).mentions := fun hok => (hscoped.1 hok).2 hmem
    rw [Slots.declare, if_pos hmem] at htracks
    exact (account_report rfl hbroken).keeping htracks
  · next hnone =>
    have hmem : name ∉ slots.names := fun hmem => hnone (Slots.isSome_offset?_iff.2 hmem)
    have hpush : ∀ i ∈ [.pushl accumulator], Plain W i :=
      fun i hi => .inr (List.mem_cons.2 (.inl (List.mem_singleton.1 hi)))
    have hrest := (account_emit (W := W) hpush).keeping htracks
    refine ((account_initial h init hW).bind fun _ _ => hrest).of_iff ?_ rfl
    rw [hscoped, and_true, and_iff_left hmem]

mutual

/-- A statement is lowered without a fault exactly if it keeps to its scope, given its labels. The names it
declares are known after it. -/
theorem account_stmt : ∀ (s : Stmt) {slots : Slots} {past : List Mention}, Tracks slots past →
    (∀ word ∈ s.spellings, W word) →
    Account W (Plain W) (stmt slots s) (Scoped past s.mentions) (2 * s.logicals)
      fun slots' => Tracks slots' (past ++ s.mentions)
  | .block body _, _, _, h, hW => account_stmts body h hW
  | .returns value pos, _, _, h, hW => account_returns h value pos hW
  | .expr value _, _, _, h, hW => (account_plain h value hW).keeping (h.expr value)
  | .declare type name init pos, _, _, h, hW => account_declare h type name init pos hW

theorem account_stmts : ∀ (body : List Stmt) {slots : Slots} {past : List Mention}, Tracks slots past →
    (∀ word ∈ Stmt.spellingsAll body, W word) →
    Account W (Plain W) (stmts slots body) (Scoped past (Stmt.mentionsAll body)) (2 * Stmt.logicalsAll body)
      fun slots' => Tracks slots' (past ++ Stmt.mentionsAll body)
  | [], slots, past, h, _ => by
    have hnone : Tracks slots (past ++ Stmt.mentionsAll []) := by
      rw [Stmt.mentionsAll, List.append_nil]
      exact h
    have hpure : Account W (Plain W) (Pure.pure slots : Emit Slots) True 0
        fun slots' => Tracks slots' (past ++ Stmt.mentionsAll []) := account_pure hnone
    exact hpure.of_iff (iff_of_true trivial scoped_nil) rfl
  | s :: more, slots, past, h, hW => by
    obtain ⟨hown, hrest⟩ := List.forall_mem_append.1 hW
    have hmore : ∀ slots', Tracks slots' (past ++ s.mentions) →
        Account W (Plain W) (stmts slots' more) (Scoped (past ++ s.mentions) (Stmt.mentionsAll more))
          (2 * Stmt.logicalsAll more)
          fun after => Tracks after (past ++ Stmt.mentionsAll (s :: more)) := by
      intro slots' hs
      have hmore := account_stmts more hs hrest
      rwa [List.append_assoc] at hmore
    refine ((account_stmt s h hown).bind hmore).of_iff scoped_append.symm ?_
    rw [Stmt.logicalsAll, Nat.mul_add]

end

theorem tracks_empty : Tracks {} [] := by
  intro name
  exact ⟨(nomatch ·), (nomatch ·)⟩

/-- What stands in front of the body of a function. -/
def entry (f : Function) : List Instruction :=
  [.directive (".globl " ++ f.name), .label f.name] ++ enter

/-- A function behind its entry. -/
def behindEntry (f : Function) : Emit Unit := do
  let _ ← stmts ({} : Slots) f.body.body
  .emit (if endsWithReturn f.body.body then [] else leave)
  .emit [.blank]

theorem functionBody_eq (f : Function) (l : Labels) :
    functionBody ({} : Slots) f l =
      ⟨(behindEntry f l).result, entry f ++ (behindEntry f l).code, (behindEntry f l).faults,
        (behindEntry f l).labels⟩ :=
  rfl

theorem account_behindEntry (f : Function) (hW : ∀ word ∈ Stmt.spellingsAll f.body.body, W word) :
    Account W (Plain W) (behindEntry f) f.WellScoped (2 * f.logicals) fun _ => True := by
  have hleave : ∀ i ∈ (if endsWithReturn f.body.body then [] else leave), Plain W i := by
    split
    · exact List.forall_mem_nil _
    · exact plain_leave
  have hblank : ∀ i ∈ [.blank], Plain W i :=
    List.forall_mem_singleton.2 (.inr (List.mem_cons_of_mem _ List.mem_cons_self))
  refine ((account_stmts f.body.body tracks_empty hW).bind fun _ _ =>
    Account.bind (account_emit hleave) fun _ _ => account_emit hblank).of_iff ?_ rfl
  rw [and_true, and_true]
  rfl

/-- What comes of a function: its entry and woven code behind it, or a comment in their place. Either way it says how
many labels are gone. -/
theorem function_ends (f : Function) (hW : ∀ word ∈ Stmt.spellingsAll f.body.body, W word) (l : Labels) :
    (∃ code faults k, function f l = ⟨.ok (), entry f ++ code, faults, l.skip k⟩ ∧
      Woven (Plain W) l.count k code ∧ Tally f.WellScoped (2 * f.logicals) l faults k) ∨
    ∃ fault faults k,
      function f l = ⟨.ok (), [.comment (f.name ++ " aborted: " ++ fault.message), .blank], faults ++ [fault],
        l.skip k⟩ ∧
      fault.Stops W ∧ (∀ fault ∈ faults, fault.isFinal = false) ∧
      ¬ (f.WellScoped ∧ 2 * f.logicals ≤ l.limit - l.count) := by
  have hbody := functionBody_eq f l
  rcases account_behindEntry f hW l with ⟨_, code, faults, k, hrun, -, hcode, htally⟩ |
    ⟨fault, code, faults, k, hrun, hstops, hgoesOn, hfaulty⟩
  · rw [hrun] at hbody
    exact .inl ⟨code, faults, k, function_of_ok hbody, hcode, htally⟩
  · rw [hrun] at hbody
    exact .inr ⟨fault, faults, k, function_of_error hbody, hstops, hgoesOn, hfaulty⟩

/-- A function is without a fault exactly if it keeps to its scope and has its labels. It takes just these. -/
theorem function_faultless (f : Function) (l : Labels) :
    ((function f l).faults = [] ↔ f.WellScoped ∧ 2 * f.logicals ≤ l.limit - l.count) ∧
      ((function f l).faults = [] → (function f l).labels = l.skip (2 * f.logicals)) := by
  rcases function_ends (W := fun _ => True) f (fun _ _ => trivial) l with ⟨code, faults, k, hrun, -, htally⟩ |
    ⟨fault, faults, k, hrun, -, -, hfaulty⟩
  · rw [hrun]
    exact ⟨htally.faultless, fun hnil => congrArg l.skip (htally.taken hnil)⟩
  · rw [hrun]
    have hsome : faults ++ [fault] ≠ [] := List.append_ne_nil_of_right_ne_nil _ (List.cons_ne_nil _ _)
    exact ⟨⟨fun hnil => absurd hnil hsome, fun hall => absurd hall hfaulty⟩, fun hnil => absurd hnil hsome⟩

theorem functions_faultless (fs : List Function) (l : Labels) :
    (functions fs l).faults = [] ↔
      (∀ f ∈ fs, f.WellScoped) ∧ 2 * (fs.map Function.logicals).sum ≤ l.limit - l.count := by
  induction fs generalizing l with
  | nil => exact ⟨fun _ => ⟨List.forall_mem_nil _, Nat.zero_le _⟩, fun _ => rfl⟩
  | cons f fs ih =>
    obtain ⟨hown, htaken⟩ := function_faultless f l
    have hroom : ∀ k, (l.skip k).limit - (l.skip k).count = l.limit - (l.count + k) := fun _ => rfl
    rw [functions_cons, List.append_eq_nil_iff, List.forall_mem_cons, List.map_cons, List.sum_cons]
    constructor
    · rintro ⟨hnil, hrest⟩
      obtain ⟨hf, hn⟩ := hown.1 hnil
      rw [htaken hnil, ih, hroom] at hrest
      exact ⟨⟨hf, hrest.1⟩, by omega⟩
    · rintro ⟨⟨hf, hfs⟩, hn⟩
      have hnil := hown.2 ⟨hf, by omega⟩
      refine ⟨hnil, ?_⟩
      rw [htaken hnil, ih, hroom]
      exact ⟨hfs, by omega⟩

/-- A unit has no fault, and none is reported, if and only if every function in it keeps to its scope and
two labels are left for each logical operator. -/
theorem faultless_iff_wellScoped (l : Labels) (unit : TranslationUnit) :
    ((program l unit).hasFault = false ∧ (program l unit).problems = []) ↔
      (∀ f ∈ unit.functions, f.WellScoped) ∧ 2 * unit.logicals ≤ l.limit - l.count := by
  rw [Program.hasFault_eq_false_iff, and_self, Program.problems, List.map_eq_nil_iff,
    TranslationUnit.logicals, ← functions_faultless unit.functions l]
  rfl

-- `x` is known after the block that declares it
example :
    let pos : Position := ⟨0, 0, ⟨0, 1⟩⟩
    let int : TypeName := ⟨"int", pos⟩
    Function.WellScoped ⟨int, "f", [],
      ⟨[.block [.declare int "x" none pos] pos, .returns (.var "x" pos) pos], pos⟩, pos⟩ := by
  decide

end Lowering

end SmallC
