import SmallC.Grammar.Reader
import SmallC.Tree

/-!
# Reading expressions

The binary operators but the comma stand in tiers, from the loosest to the tightest; each tier is a
chain of operands of the next one, grouped to the left. Looser than all of them are assignment, which
groups to the right, and the comma; tighter are the operators before and after an operand.
-/
namespace SmallC

namespace Punctuator

/-- The operators in tiers. -/
def binary? : Punctuator → Option BinaryOp
  | .barBar => some .logOr
  | .andAnd => some .logAnd
  | .bar => some (.arith .bitOr)
  | .caret => some (.arith .bitXor)
  | .ampersand => some (.arith .bitAnd)
  | .equal => some (.compare .eq)
  | .notEqual => some (.compare .ne)
  | .less => some (.compare .lt)
  | .lessEqual => some (.compare .le)
  | .greater => some (.compare .gt)
  | .greaterEqual => some (.compare .ge)
  | .shiftLeft => some (.arith .shiftLeft)
  | .shiftRight => some (.arith .shiftRight)
  | .plus => some (.arith .add)
  | .minus => some (.arith .sub)
  | .star => some (.arith .mul)
  | .slash => some (.arith .div)
  | .percent => some (.arith .mod)
  | _ => none

def assign? : Punctuator → Option AssignOp
  | .assign => some .plain
  | .plusAssign => some (.compound .add)
  | .minusAssign => some (.compound .sub)
  | .starAssign => some (.compound .mul)
  | .slashAssign => some (.compound .div)
  | .percentAssign => some (.compound .mod)
  | .andAssign => some (.compound .bitAnd)
  | .barAssign => some (.compound .bitOr)
  | .caretAssign => some (.compound .bitXor)
  | .shiftLeftAssign => some (.compound .shiftLeft)
  | .shiftRightAssign => some (.compound .shiftRight)
  | _ => none

/-- What is written before an operand; a plus sign leaves it as it is. -/
def sign? : Punctuator → Option (Option UnaryOp)
  | .plus => some none
  | .minus => some (some .neg)
  | .tilde => some (some .bitNot)
  | .bang => some (some .logNot)
  | .increment => some (some (.before .increment))
  | .decrement => some (some (.before .decrement))
  | _ => none

/-- What is written after an operand. -/
def step? : Punctuator → Option StepOp
  | .increment => some .increment
  | .decrement => some .decrement
  | _ => none

def comma? : Punctuator → Option BinaryOp
  | .comma => some .comma
  | _ => none

end Punctuator

namespace BinaryOp

/-- Number of tiers. -/
def tiers : Nat := 10

/-- How tightly an operator binds; the comma stands outside the tiers. -/
def tier : BinaryOp → Nat
  | logOr => 0
  | logAnd => 1
  | arith .bitOr => 2
  | arith .bitXor => 3
  | arith .bitAnd => 4
  | compare .eq | compare .ne => 5
  | compare .lt | compare .le | compare .gt | compare .ge => 6
  | arith .shiftLeft | arith .shiftRight => 7
  | arith .add | arith .sub => 8
  | arith .mul | arith .div | arith .mod => 9
  | comma => tiers

/-- The operators of one tier. -/
def atTier? (tier : Nat) (p : Punctuator) : Option BinaryOp :=
  p.binary?.filter (·.tier == tier)

end BinaryOp

namespace Grammar

open Reader

/-- The steps written after an operand. -/
def steps (operand : Expr) (r : Reader) : Outcome 0 r Expr :=
  match h : r.operator? Punctuator.step? with
  | none => .done r operand
  | some op =>
    have less := advance_lt (rest_ne_nil_of_operator h)
    .since (Nat.le_of_succ_le less) (steps (.unary (.after op) operand r.pos) r.advance)
termination_by r.remaining

mutual

/-- A number, a name or a group in parentheses. -/
def primary (r : Reader) : Outcome 1 r Expr :=
  match h : r.rest with
  | [] => .fail r .expression
  | t :: _ =>
    have left := rest_ne_nil_of_cons h
    have less := advance_lt left
    match t.kind with
    | .punct .openParen =>
      .since less ((expression r.advance).andThen fun e s _ =>
        (s.expect (.punct .closeParen) .groupClosing).map fun _ => e)
    | .number => .consume r left (.number t.lexeme t.pos)
    | .identifier => .consume r left (.var t.lexeme t.pos)
    | _ => .fail r .expression
termination_by (r.remaining, 0)

def unary (r : Reader) : Outcome 1 r Expr :=
  match h : r.operator? Punctuator.sign? with
  | none => (primary r).andThen fun e s _ => steps e s
  | some none =>
    have less := advance_lt (rest_ne_nil_of_operator h)
    .since less (unary r.advance)
  | some (some op) =>
    have less := advance_lt (rest_ne_nil_of_operator h)
    .since less ((unary r.advance).map fun e => .unary op e r.pos)
termination_by (r.remaining, 1)

/-- The chain of operands of one tier, and everything tighter. -/
def binary (tier : Nat) (r : Reader) : Outcome 1 r Expr :=
  if tier < BinaryOp.tiers then
    (binary (tier + 1) r).andThen fun left s _ => chain tier left s
  else unary r
termination_by (r.remaining, 2 + (BinaryOp.tiers - tier))

/-- What follows the first operand of a tier. -/
def chain (tier : Nat) (left : Expr) (r : Reader) : Outcome 0 r Expr :=
  match h : r.operator? (BinaryOp.atTier? tier) with
  | none => .done r left
  | some op =>
    have less := advance_lt (rest_ne_nil_of_operator h)
    .since (Nat.le_of_succ_le less) ((binary (tier + 1) r.advance).andThen fun right s _ =>
      chain tier (.binary op left right r.pos) s)
termination_by (r.remaining, 0)

def assignment (r : Reader) : Outcome 1 r Expr :=
  (binary 0 r).andThen fun target s _ =>
    match h : s.operator? Punctuator.assign? with
    | none => .done s target
    | some op =>
      have less := advance_lt (rest_ne_nil_of_operator h)
      .since (Nat.le_of_succ_le less)
        ((assignment s.advance).map fun value => .assign op target value s.pos)
termination_by (r.remaining, 3 + BinaryOp.tiers)

def expression (r : Reader) : Outcome 1 r Expr :=
  (assignment r).andThen fun left s _ => commas left s
termination_by (r.remaining, 4 + BinaryOp.tiers)

/-- What follows the first operand of a comma. -/
def commas (left : Expr) (r : Reader) : Outcome 0 r Expr :=
  match h : r.operator? Punctuator.comma? with
  | none => .done r left
  | some op =>
    have less := advance_lt (rest_ne_nil_of_operator h)
    .since (Nat.le_of_succ_le less) ((assignment r.advance).andThen fun right s _ =>
      commas (.binary op left right r.pos) s)
termination_by (r.remaining, 0)

end

end Grammar

end SmallC
