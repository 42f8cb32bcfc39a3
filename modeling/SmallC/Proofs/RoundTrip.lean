import SmallC.Compile
import SmallC.Proofs.Grammar.Writing

/-!
# Trees are read back

Every unit that a program text can stand for is the unit of some text: the one that it is written as. Its
tokens are spelled like tokens, so they are read one by one, and the grammar makes the unit of them again.
-/
namespace SmallC

open Scan (Spelled)
open Text (parenthesized)
open Grammar

theorem AllSpelled.parenthesized {ws : List String} (h : AllSpelled ws) :
    AllSpelled (parenthesized ws) :=
  .sign (p := .openParen) (by decide) (h.append (.sign (p := .closeParen) (by decide) .nil))

theorem AllSpelled.semicolon {ws : List String} (h : AllSpelled ws) : AllSpelled (ws ++ [";"]) :=
  h.append (.sign (p := .semicolon) (by decide) .nil)

theorem Expr.allSpelled (e : Expr) (h : e.isWritable = true) : AllSpelled e.write := by
  induction e with
  | number digits pos => exact .cons (Text.spelled_number h) .nil
  | var name pos => exact .cons (Text.spelled_name h) .nil
  | unary op operand pos ih =>
    have hgroup := (ih h).parenthesized
    rw [write]
    split
    · next hop =>
      obtain ⟨step, rfl⟩ : ∃ step, op = .after step := by
        cases op with
        | after step => exact ⟨step, rfl⟩
        | neg | bitNot | logNot | before => cases hop
      obtain ⟨p, -, hp, hspelling⟩ := exists_step_sign step
      have hlast : AllSpelled [step.spelling] := hspelling ▸ .sign hp .nil
      exact hgroup.append hlast
    · next hop =>
      obtain ⟨p, -, hp, hspelling⟩ := exists_sign (Bool.eq_false_iff.2 hop)
      exact hspelling ▸ .sign hp hgroup
  | binary op left right pos ihl ihr =>
    obtain ⟨hleft, hright⟩ := (Bool.and_eq_true _ _).mp h
    refine (ihl hleft).parenthesized.append ?_
    by_cases hop : op = .comma
    · subst hop
      exact .sign (p := .comma) (by decide) (ihr hright).parenthesized
    · obtain ⟨-, -, p, -, hp, hspelling⟩ := exists_binary_sign hop
      rw [← hspelling]
      exact .sign hp (ihr hright).parenthesized
  | assign op target value pos iht ihv =>
    obtain ⟨htarget, hvalue⟩ := (Bool.and_eq_true _ _).mp h
    obtain ⟨p, -, hp, hspelling⟩ := exists_assign_sign op
    rw [write, ← hspelling]
    exact (iht htarget).parenthesized.append (.sign hp (ihv hvalue).parenthesized)

theorem Stmt.allSpelled_block {ws : List String} (h : AllSpelled ws) :
    AllSpelled ("\x7b" :: (ws ++ ["\x7d"])) :=
  .sign (p := .openBrace) (by decide) (h.append (.sign (p := .closeBrace) (by decide) .nil))

theorem Expr.allSpelled_initial {init : Option Expr} (h : init.all isWritable = true) :
    AllSpelled (writeInitial init) := by
  cases init with
  | none => exact .nil
  | some value => exact .sign (p := .assign) (by decide) (value.allSpelled h).parenthesized

mutual

theorem Stmt.allSpelled : ∀ s : Stmt, s.isWritable = true → AllSpelled s.write
  | .block body _, h => allSpelled_block (allSpelled_writeAll body h)
  | .returns value _, h => .cons Text.spelled_return ((value.allSpelled h).semicolon)
  | .expr value _, h => (value.allSpelled h).semicolon
  | .declare type name init _, h => by
    obtain ⟨hfront, hinit⟩ := (Bool.and_eq_true _ _).mp h
    obtain ⟨htype, hname⟩ := (Bool.and_eq_true _ _).mp hfront
    have hint : Spelled type.name .intKeyword := beq_iff_eq.1 htype ▸ Text.spelled_int
    exact .cons hint (.cons (Text.spelled_name hname) (Expr.allSpelled_initial hinit).semicolon)

theorem Stmt.allSpelled_writeAll : ∀ body : List Stmt, areWritable body = true →
    AllSpelled (writeAll body)
  | [], _ => .nil
  | s :: more, h => by
    obtain ⟨hs, hmore⟩ := (Bool.and_eq_true _ _).mp h
    exact (Stmt.allSpelled s hs).append (Stmt.allSpelled_writeAll more hmore)

end

theorem Function.allSpelled {f : Function} (h : f.isWritable = true) : AllSpelled f.write := by
  simp only [isWritable, Bool.and_eq_true, beq_iff_eq] at h
  obtain ⟨⟨⟨htype, -⟩, hname⟩, hbody⟩ := h
  have hint : Spelled f.returnType.name .intKeyword := htype ▸ Text.spelled_int
  exact .cons hint (.cons (Text.spelled_name hname) (.sign (p := .openParen) (by decide)
    (.sign (p := .closeParen) (by decide) (Stmt.allSpelled_block (Stmt.allSpelled_writeAll _ hbody)))))

theorem TranslationUnit.allSpelled {u : TranslationUnit} (h : u.isWritable = true) :
    AllSpelled u.write := by
  intro w hw
  obtain ⟨f, hf, hw⟩ := List.mem_flatMap.1 hw
  exact Function.allSpelled (List.all_eq_true.1 h f hf) w hw

/-- A unit that is written down is read back without a problem, up to positions. -/
theorem written_unit_read_back {u : TranslationUnit} (h : u.isWritable = true)
    (load : Path → Option String) (files : List SourceFile) :
    let parsed := Grammar.parse ((Job.ofText u.text).preprocessor load files).run.1
    parsed.problems = [] ∧ parsed.unit.erase = u.erase := by
  intro parsed
  have hwritten : WrittenAs ((Job.ofText u.text).preprocessor load files).run.1.tokens u.write :=
    Preprocessor.run_intercalate (TranslationUnit.allSpelled h) (fun _ => rfl) rfl rfl
  obtain ⟨fs, hderives, herase⟩ := Grammar.rederives_functions (List.all_eq_true.1 h) hwritten
  have hclean : ∀ t ∈ ((Job.ofText u.text).preprocessor load files).run.1.tokens,
      t.kind ≠ .invalid ∧ t.kind ≠ .endOfFile :=
    fun t ht => (hwritten.spelled t ht).kind_ordinary.2
  obtain ⟨hproblems, hunit⟩ := (Grammar.parse_eq_iff_derives hclean ⟨fs⟩).2 hderives
  refine ⟨hproblems, ?_⟩
  rw [hunit]
  exact congrArg TranslationUnit.mk herase

/-- Operators next to others with similar spellings, on operands that no assignment makes sense for. -/
def oddOperands : TranslationUnit :=
  let here := Position.origin
  let one : Expr := .number "1" here
  let step (op : UnaryOp) (e : Expr) : Expr := .unary op e here
  let body : List Stmt :=
    [.declare ⟨"int", here⟩ "a" (some (.binary .comma one (.var "a" here) here)) here,
      .block [.expr (.assign (.compound .shiftRight) (step (.after .increment) one)
        (step .neg (step (.before .decrement) one)) here) here] here,
      .returns (.binary .logAnd (step .logNot one) (.binary (.arith .bitAnd) one one here) here) here]
  ⟨[⟨⟨"int", here⟩, "odd", [], ⟨body, here⟩, here⟩]⟩

theorem oddOperands_read_back :
    oddOperands.isWritable = true ∧
    oddOperands.text = "int odd ( ) \x7b int a = ( ( 1 ) , ( a ) ) ; " ++
      "\x7b ( ( 1 ) ++ ) >>= ( - ( -- ( 1 ) ) ) ; \x7d " ++
      "return ( ! ( 1 ) ) && ( ( 1 ) & ( 1 ) ) ; \x7d" ∧
    let parsed := Grammar.parse ((Job.ofText oddOperands.text).preprocessor (fun _ => none) []).run.1
    parsed.problems = [] ∧ parsed.unit.erase = oddOperands.erase := by
  have hwritable : oddOperands.isWritable = true := by decide
  exact ⟨hwritable, by decide +kernel, written_unit_read_back hwritable _ _⟩

end SmallC
