import SmallC.Grammar.Expression
import SmallC.Grammar.Recovery

/-!
# Reading statements, functions and units

A mistake ends the statement or function that it is in; reading goes on behind it, so that one run
finds as many mistakes as it can. A unit with any fault is read as empty.
-/
namespace SmallC.Grammar

open Reader

def typeName (r : Reader) : Outcome 1 r TypeName :=
  (r.expect .intKeyword .typeName).map fun t => ⟨t.lexeme, t.pos⟩

/-- A declaration's initial value, if it has one. -/
def initializer (r : Reader) : Outcome 0 r (Option Expr) :=
  match h : r.operator? (fun p => if p = .assign then some () else none) with
  | none => .done r none
  | some () =>
    .since (Nat.le_of_succ_le (advance_lt (rest_ne_nil_of_operator h)))
      ((assignment r.advance).map some)

def declaration (r : Reader) : Outcome 1 r Stmt :=
  (typeName r).andThen fun type s _ =>
    (s.expect .identifier .variableName).andThen fun name t _ =>
      (initializer t).andThen fun init u _ =>
        (u.expect (.punct .semicolon) .declarationEnd).map fun _ =>
          .declare type name.lexeme init r.pos

def returnStatement (r : Reader) (h : r.rest ≠ []) : Outcome 1 r Stmt :=
  .since (advance_lt h) ((expression r.advance).andThen fun value s _ =>
    (s.expect (.punct .semicolon) .returnEnd).map fun _ => .returns value r.pos)

def expressionStatement (r : Reader) : Outcome 1 r Stmt :=
  (expression r).andThen fun value s _ =>
    (s.expect (.punct .semicolon) .expressionEnd).map fun _ => .expr value r.pos

mutual

def statement (r : Reader) : Outcome 1 r Stmt :=
  match h : r.rest with
  | [] => expressionStatement r
  | t :: _ =>
    match t.kind with
    | .returnKeyword => returnStatement r (rest_ne_nil_of_cons h)
    | .intKeyword => declaration r
    | .punct .openBrace => (block r).map fun b => .block b.body b.pos
    | _ => expressionStatement r
termination_by (r.remaining, 1)

def block (r : Reader) : Outcome 1 r Block :=
  (r.expect (.punct .openBrace) .blockOpening).andThen fun _ s _ =>
    (statements s).andThen fun body t _ =>
      (t.expect (.punct .closeBrace) .blockClosing).map fun _ => ⟨body, r.pos⟩
termination_by (r.remaining, 0)

/-- The statements up to the end of a block; broken ones are left out. -/
def statements (r : Reader) : Outcome 0 r (List Stmt) :=
  if h : r.kind = .punct .closeBrace ∨ r.atEnd then .done r []
  else
    have more := rest_ne_nil_of_atEnd (not_or.1 h).2
    match statement r with
    | ⟨some s, t, _, lt⟩ =>
      have less := lt rfl
      .since (Nat.le_of_succ_le less) ((statements t).map (s :: ·))
    | ⟨none, t, le, _⟩ =>
      have less := recover_lt le more
      .since (Nat.le_of_succ_le less) (statements (t.recover r))
termination_by (r.remaining, 2)

end

def function (r : Reader) : Outcome 1 r Function :=
  (typeName r).andThen fun type s _ =>
    (s.expect .identifier .functionName).andThen fun name t _ =>
      (t.expect (.punct .openParen) .parameterOpening).andThen fun _ u _ =>
        (u.expect (.punct .closeParen) .parameterClosing).andThen fun _ v _ =>
          (block v).map fun body => ⟨type, name.lexeme, [], body, r.pos⟩

/-- The functions up to the end of the stream; broken ones are left out. -/
def functions (r : Reader) : List Function × Reader :=
  if h : r.atEnd then ([], r)
  else
    have more := rest_ne_nil_of_atEnd h
    match function r with
    | ⟨some f, t, _, lt⟩ =>
      have := lt rfl
      let (fs, last) := functions t
      (f :: fs, last)
    | ⟨none, t, le, _⟩ =>
      have := recoverDeclaration_lt le more
      functions (t.recoverDeclaration r)
termination_by r.remaining

/-- What a whole stream was read as, and what was remarked on the way. -/
structure Parse where
  unit : TranslationUnit
  remarks : List Remark

namespace Parse

/-- There was a mistake or an invalid token, reported or not. -/
def hasFault (p : Parse) : Bool :=
  p.remarks.any Remark.isFault

def problems (p : Parse) : List Problem :=
  p.remarks.filterMap Remark.problem?

end Parse

/-- Reads a unit to the end of the stream. -/
def parse (s : TokenStream) : Parse :=
  let (fs, last) := functions (.start s)
  if last.remarks.any Remark.isFault then ⟨{}, last.remarks⟩ else ⟨⟨fs⟩, last.remarks⟩

end SmallC.Grammar
