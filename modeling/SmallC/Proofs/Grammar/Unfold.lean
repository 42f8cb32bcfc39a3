import SmallC.Grammar.Program

/-!
# Reading functions by what they look at

Each reading function looks at the lookahead and at most at the token consumed last. Here is what it does, one
equation for each thing that it can find.
-/
namespace SmallC.Grammar

open Reader

variable {r t : Reader} {u : Token} {us : List Token}

namespace Reader

theorem operator?_eq_some {α : Type} {table : Punctuator → Option α} {a : α}
    (h : r.operator? table = some a) :
    ∃ t rest p, r.rest = t :: rest ∧ t.kind = .punct p ∧ table p = some a := by
  unfold operator? at h
  split at h
  · cases h
  · next t rest hr =>
    split at h
    · next p hk => exact ⟨t, rest, p, hr, hk, h⟩
    · cases h

theorem pos_eq {t : Token} {rest : List Token} (h : r.rest = t :: rest) : r.pos = t.pos := by
  simp [pos, lookahead, h]

theorem kind_eq {t : Token} {rest : List Token} (h : r.rest = t :: rest) : r.kind = t.kind := by
  simp [kind, lookahead, h]

theorem expect_of_nil (hr : r.rest = []) (kind : Kind) (wanted : Expectation) :
    r.expect kind wanted = .fail r wanted := by
  unfold expect
  split
  · rfl
  · next h => cases hr.symm.trans h

theorem expect_of_cons (hr : r.rest = u :: us) (kind : Kind) (wanted : Expectation) :
    r.expect kind wanted =
      if u.kind = kind then .consume r (rest_ne_nil_of_cons hr) u else .fail r wanted := by
  unfold expect
  split
  · next h => cases hr.symm.trans h
  · next h =>
    obtain ⟨rfl, -⟩ := List.cons.inj (hr.symm.trans h)
    rfl

end Reader

theorem steps_of_none {e : Expr} (h : r.operator? Punctuator.step? = none) :
    steps e r = .done r e := by
  rw [steps]
  split
  · rfl
  · next h' => cases h.symm.trans h'

theorem steps_of_some {e : Expr} {op : StepOp} (h : r.operator? Punctuator.step? = some op) :
    steps e r =
      .since (Nat.le_of_succ_le (advance_lt (rest_ne_nil_of_operator h)))
        (steps (.unary (.after op) e r.pos) r.advance) := by
  rw [steps]
  split
  · next h' => cases h.symm.trans h'
  · next h' =>
    obtain rfl := Option.some.inj (h.symm.trans h')
    rfl

theorem primary_of_nil (hr : r.rest = []) : primary r = .fail r .expression := by
  rw [primary]
  split
  · rfl
  · next h => cases hr.symm.trans h

theorem primary_of_cons (hr : r.rest = u :: us) :
    primary r =
      match u.kind with
      | .punct .openParen =>
        .since (advance_lt (rest_ne_nil_of_cons hr)) ((expression r.advance).andThen fun e s _ =>
          (s.expect (.punct .closeParen) .groupClosing).map fun _ => e)
      | .number => .consume r (rest_ne_nil_of_cons hr) (.number u.lexeme u.pos)
      | .identifier => .consume r (rest_ne_nil_of_cons hr) (.var u.lexeme u.pos)
      | _ => .fail r .expression := by
  rw [primary]
  split
  · next h => cases hr.symm.trans h
  · next h =>
    obtain ⟨rfl, -⟩ := List.cons.inj (hr.symm.trans h)
    rfl

theorem unary_of_none (h : r.operator? Punctuator.sign? = none) :
    unary r = (primary r).andThen fun e s _ => steps e s := by
  rw [unary]
  split
  · rfl
  · next h' => cases h.symm.trans h'
  · next h' => cases h.symm.trans h'

theorem unary_of_plus (h : r.operator? Punctuator.sign? = some none) :
    unary r = .since (advance_lt (rest_ne_nil_of_operator h)) (unary r.advance) := by
  rw [unary]
  split
  · next h' => cases h.symm.trans h'
  · rfl
  · next h' => cases h.symm.trans h'

theorem unary_of_operator {op : UnaryOp} (h : r.operator? Punctuator.sign? = some (some op)) :
    unary r =
      .since (advance_lt (rest_ne_nil_of_operator h))
        ((unary r.advance).map fun e => .unary op e r.pos) := by
  rw [unary]
  split
  · next h' => cases h.symm.trans h'
  · next h' => cases h.symm.trans h'
  · next h' =>
    obtain rfl := Option.some.inj (Option.some.inj (h.symm.trans h'))
    rfl

theorem chain_of_none {tier : Nat} {left : Expr} (h : r.operator? (BinaryOp.atTier? tier) = none) :
    chain tier left r = .done r left := by
  rw [chain]
  split
  · rfl
  · next h' => cases h.symm.trans h'

theorem chain_of_some {tier : Nat} {left : Expr} {op : BinaryOp}
    (h : r.operator? (BinaryOp.atTier? tier) = some op) :
    chain tier left r =
      .since (Nat.le_of_succ_le (advance_lt (rest_ne_nil_of_operator h)))
        ((binary (tier + 1) r.advance).andThen fun right s _ =>
          chain tier (.binary op left right r.pos) s) := by
  rw [chain]
  split
  · next h' => cases h.symm.trans h'
  · next h' =>
    obtain rfl := Option.some.inj (h.symm.trans h')
    rfl

theorem commas_of_none {left : Expr} (h : r.operator? Punctuator.comma? = none) :
    commas left r = .done r left := by
  rw [commas]
  split
  · rfl
  · next h' => cases h.symm.trans h'

theorem commas_of_some {left : Expr} {op : BinaryOp} (h : r.operator? Punctuator.comma? = some op) :
    commas left r =
      .since (Nat.le_of_succ_le (advance_lt (rest_ne_nil_of_operator h)))
        ((assignment r.advance).andThen fun right s _ => commas (.binary op left right r.pos) s) := by
  rw [commas]
  split
  · next h' => cases h.symm.trans h'
  · next h' =>
    obtain rfl := Option.some.inj (h.symm.trans h')
    rfl

/-- What follows the left side of an assignment. -/
def assigned (target : Expr) (r : Reader) : Outcome 0 r Expr :=
  match h : r.operator? Punctuator.assign? with
  | none => .done r target
  | some op =>
    .since (Nat.le_of_succ_le (advance_lt (rest_ne_nil_of_operator h)))
      ((assignment r.advance).map fun value => .assign op target value r.pos)

theorem assignment_eq (r : Reader) :
    assignment r = (binary 0 r).andThen fun target s _ => assigned target s := by
  rw [assignment]
  rfl

theorem assigned_of_none {target : Expr} (h : r.operator? Punctuator.assign? = none) :
    assigned target r = .done r target := by
  unfold assigned
  split
  · rfl
  · next h' => cases h.symm.trans h'

theorem assigned_of_some {target : Expr} {op : AssignOp} (h : r.operator? Punctuator.assign? = some op) :
    assigned target r =
      .since (Nat.le_of_succ_le (advance_lt (rest_ne_nil_of_operator h)))
        ((assignment r.advance).map fun value => .assign op target value r.pos) := by
  unfold assigned
  split
  · next h' => cases h.symm.trans h'
  · next h' =>
    obtain rfl := Option.some.inj (h.symm.trans h')
    rfl

/-- What a declaration looks for after its name. -/
def assign? (p : Punctuator) : Option Unit :=
  if p = .assign then some () else none

theorem initializer_of_none (h : r.operator? assign? = none) : initializer r = .done r none := by
  unfold initializer
  split
  · rfl
  · next h' => cases h.symm.trans h'

theorem initializer_of_some (h : r.operator? assign? = some ()) :
    initializer r =
      .since (Nat.le_of_succ_le (advance_lt (rest_ne_nil_of_operator h)))
        ((assignment r.advance).map some) := by
  unfold initializer
  split
  · next h' => cases h.symm.trans h'
  · rfl

theorem statement_of_nil (hr : r.rest = []) : statement r = expressionStatement r := by
  rw [statement]
  split
  · rfl
  · next h => cases hr.symm.trans h

theorem statement_of_cons (hr : r.rest = u :: us) :
    statement r =
      match u.kind with
      | .returnKeyword => returnStatement r (rest_ne_nil_of_cons hr)
      | .intKeyword => declaration r
      | .punct .openBrace => (block r).map fun b => .block b.body b.pos
      | _ => expressionStatement r := by
  rw [statement]
  split
  · next h => cases hr.symm.trans h
  · next h =>
    obtain ⟨rfl, -⟩ := List.cons.inj (hr.symm.trans h)
    rfl

theorem statements_of_end (h : r.kind = .punct .closeBrace ∨ r.atEnd = true) :
    statements r = .done r [] := by
  rw [statements, dif_pos h]

theorem statements_of_value (h : ¬ (r.kind = .punct .closeBrace ∨ r.atEnd = true)) {s : Stmt}
    {le : t.remaining ≤ r.remaining} {lt : (some s).isSome = true → t.remaining + 1 ≤ r.remaining}
    (hs : statement r = ⟨some s, t, le, lt⟩) :
    statements r = .since (Nat.le_of_succ_le (lt rfl)) ((statements t).map (s :: ·)) := by
  rw [statements, dif_neg h]
  dsimp only
  split
  · next heq =>
    cases hs.symm.trans heq
    rfl
  · next heq => cases hs.symm.trans heq

theorem statements_of_mistake (h : ¬ (r.kind = .punct .closeBrace ∨ r.atEnd = true))
    {le : t.remaining ≤ r.remaining}
    {lt : (none : Option Stmt).isSome = true → t.remaining + 1 ≤ r.remaining}
    (hs : statement r = ⟨none, t, le, lt⟩) :
    statements r =
      .since (Nat.le_of_succ_le (recover_lt le (rest_ne_nil_of_atEnd (not_or.1 h).2)))
        (statements (t.recover r)) := by
  rw [statements, dif_neg h]
  dsimp only
  split
  · next heq => cases hs.symm.trans heq
  · next heq =>
    cases hs.symm.trans heq
    rfl

theorem functions_of_end (h : r.atEnd = true) : functions r = ([], r) := by
  rw [functions, dif_pos h]

theorem functions_of_value (h : ¬ r.atEnd = true) {f : Function} {le : t.remaining ≤ r.remaining}
    {lt : (some f).isSome = true → t.remaining + 1 ≤ r.remaining}
    (hf : function r = ⟨some f, t, le, lt⟩) :
    functions r = (f :: (functions t).1, (functions t).2) := by
  rw [functions, dif_neg h]
  dsimp only
  split
  · next heq =>
    cases hf.symm.trans heq
    rfl
  · next heq => cases hf.symm.trans heq

theorem functions_of_mistake (h : ¬ r.atEnd = true) {le : t.remaining ≤ r.remaining}
    {lt : (none : Option Function).isSome = true → t.remaining + 1 ≤ r.remaining}
    (hf : function r = ⟨none, t, le, lt⟩) : functions r = functions (t.recoverDeclaration r) := by
  rw [functions, dif_neg h]
  dsimp only
  split
  · next heq => cases hf.symm.trans heq
  · next heq =>
    cases hf.symm.trans heq
    rfl

end SmallC.Grammar
