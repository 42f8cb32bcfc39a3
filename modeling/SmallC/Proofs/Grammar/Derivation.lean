import SmallC.Grammar.Program

/-!
# The grammar

What tokens are a unit, and which one: the rules of the language as they would be written down, one
constructor a rule. An operator stands for the node that is made of it, at the position of its token.
The tables of operators are those of the language; that the reading functions look them up the same way
is shown at the end.
-/
namespace SmallC.Grammar

/-- The binary operators, a chain of each list looser than of the next. -/
def levels : List (List (Punctuator × BinaryOp)) :=
  [[(.barBar, .logOr)],
    [(.andAnd, .logAnd)],
    [(.bar, .arith .bitOr)],
    [(.caret, .arith .bitXor)],
    [(.ampersand, .arith .bitAnd)],
    [(.equal, .compare .eq), (.notEqual, .compare .ne)],
    [(.less, .compare .lt), (.lessEqual, .compare .le), (.greater, .compare .gt),
      (.greaterEqual, .compare .ge)],
    [(.shiftLeft, .arith .shiftLeft), (.shiftRight, .arith .shiftRight)],
    [(.plus, .arith .add), (.minus, .arith .sub)],
    [(.star, .arith .mul), (.slash, .arith .div), (.percent, .arith .mod)]]

def assignSigns : List (Punctuator × AssignOp) :=
  [(.assign, .plain), (.plusAssign, .compound .add), (.minusAssign, .compound .sub),
    (.starAssign, .compound .mul), (.slashAssign, .compound .div),
    (.percentAssign, .compound .mod), (.andAssign, .compound .bitAnd),
    (.barAssign, .compound .bitOr), (.caretAssign, .compound .bitXor),
    (.shiftLeftAssign, .compound .shiftLeft), (.shiftRightAssign, .compound .shiftRight)]

/-- What is written before an operand and makes a node. -/
def signs : List (Punctuator × UnaryOp) :=
  [(.bang, .logNot), (.tilde, .bitNot), (.minus, .neg), (.increment, .before .increment),
    (.decrement, .before .decrement)]

def stepSigns : List (Punctuator × StepOp) :=
  [(.increment, .increment), (.decrement, .decrement)]

/-- The levels of an expression, the tightest first; `tier n` is a chain of operators of the list at
`n`. -/
inductive Level where
  | primary
  | stepped
  | unary
  | tier (n : Nat)
  | assignment
  | expression

/-- The tokens are an expression of the level. -/
inductive Derives : Level → List Token → Expr → Prop where
  | number {t : Token} (ht : t.kind = .number) : Derives .primary [t] (.number t.lexeme t.pos)
  | name {t : Token} (ht : t.kind = .identifier) : Derives .primary [t] (.var t.lexeme t.pos)
  | group {o c : Token} {ts : List Token} {e : Expr} (ho : o.kind = .punct .openParen)
      (h : Derives .expression ts e) (hc : c.kind = .punct .closeParen) :
      Derives .primary (o :: (ts ++ [c])) e
  | ofPrimary {ts : List Token} {e : Expr} (h : Derives .primary ts e) : Derives .stepped ts e
  | step {t : Token} {ts : List Token} {e : Expr} {p : Punctuator} {op : StepOp}
      (h : Derives .stepped ts e) (ht : t.kind = .punct p) (hop : (p, op) ∈ stepSigns) :
      Derives .stepped (ts ++ [t]) (.unary (.after op) e t.pos)
  | ofStepped {ts : List Token} {e : Expr} (h : Derives .stepped ts e) : Derives .unary ts e
  | plus {t : Token} {ts : List Token} {e : Expr} (ht : t.kind = .punct .plus)
      (h : Derives .unary ts e) : Derives .unary (t :: ts) e
  | sign {t : Token} {ts : List Token} {e : Expr} {p : Punctuator} {op : UnaryOp}
      (ht : t.kind = .punct p) (hop : (p, op) ∈ signs) (h : Derives .unary ts e) :
      Derives .unary (t :: ts) (.unary op e t.pos)
  | ofUnary {ts : List Token} {e : Expr} (h : Derives .unary ts e) :
      Derives (.tier levels.length) ts e
  | ofTighter {n : Nat} {ts : List Token} {e : Expr} (hn : n < levels.length)
      (h : Derives (.tier (n + 1)) ts e) : Derives (.tier n) ts e
  | chain {n : Nat} {t : Token} {ts us : List Token} {left right : Expr} {p : Punctuator}
      {op : BinaryOp} (h : Derives (.tier n) ts left) (ht : t.kind = .punct p)
      (hop : (p, op) ∈ levels.getD n []) (h' : Derives (.tier (n + 1)) us right) :
      Derives (.tier n) (ts ++ t :: us) (.binary op left right t.pos)
  | ofTier {ts : List Token} {e : Expr} (h : Derives (.tier 0) ts e) : Derives .assignment ts e
  | assign {t : Token} {ts us : List Token} {target value : Expr} {p : Punctuator} {op : AssignOp}
      (h : Derives (.tier 0) ts target) (ht : t.kind = .punct p) (hop : (p, op) ∈ assignSigns)
      (h' : Derives .assignment us value) :
      Derives .assignment (ts ++ t :: us) (.assign op target value t.pos)
  | ofAssignment {ts : List Token} {e : Expr} (h : Derives .assignment ts e) :
      Derives .expression ts e
  | comma {t : Token} {ts us : List Token} {left right : Expr} (h : Derives .expression ts left)
      (ht : t.kind = .punct .comma) (h' : Derives .assignment us right) :
      Derives .expression (ts ++ t :: us) (.binary .comma left right t.pos)

/-- What an expression can start with. -/
def starters : List Kind :=
  [.number, .identifier, .punct .openParen, .punct .plus] ++ signs.map (.punct ·.1)

theorem Derives.exists_head {level : Level} {ts : List Token} {e : Expr} (h : Derives level ts e) :
    ∃ t us, ts = t :: us ∧ t.kind ∈ starters := by
  induction h with
  | number hk | name hk | group hk _ _ _ | plus hk _ _ =>
    refine ⟨_, _, rfl, ?_⟩
    rw [hk]
    decide
  | sign hk hop _ _ =>
    refine ⟨_, _, rfl, ?_⟩
    rw [hk]
    exact List.mem_append_right _ (List.mem_map_of_mem hop)
  | ofPrimary _ ih | ofStepped _ ih | ofUnary _ ih | ofTighter _ _ ih | ofTier _ ih
  | ofAssignment _ ih => exact ih
  | step _ _ _ ih | chain _ _ _ _ ih _ | assign _ _ _ _ ih _ | comma _ _ _ ih _ =>
    obtain ⟨t, us, rfl, ht⟩ := ih
    exact ⟨t, _, rfl, ht⟩

/-- The tokens are the initial value of a declaration, or there is neither. -/
inductive DerivesInitial : List Token → Option Expr → Prop where
  | absent : DerivesInitial [] none
  | given {a : Token} {ts : List Token} {e : Expr} (ha : a.kind = .punct .assign)
      (h : Derives .assignment ts e) : DerivesInitial (a :: ts) (some e)

mutual

/-- The tokens are a statement. -/
inductive DerivesStmt : List Token → Stmt → Prop where
  | returns {k s : Token} {ts : List Token} {e : Expr} (hk : k.kind = .returnKeyword)
      (h : Derives .expression ts e) (hs : s.kind = .punct .semicolon) :
      DerivesStmt (k :: (ts ++ [s])) (.returns e k.pos)
  | declare {k n s : Token} {ts : List Token} {init : Option Expr} (hk : k.kind = .intKeyword)
      (hn : n.kind = .identifier) (h : DerivesInitial ts init) (hs : s.kind = .punct .semicolon) :
      DerivesStmt (k :: n :: (ts ++ [s])) (.declare ⟨k.lexeme, k.pos⟩ n.lexeme init k.pos)
  | block {ts : List Token} {b : Block} (h : DerivesBlock ts b) :
      DerivesStmt ts (.block b.body b.pos)
  | expr {t s : Token} {ts : List Token} {e : Expr} (h : Derives .expression (t :: ts) e)
      (hs : s.kind = .punct .semicolon) : DerivesStmt (t :: (ts ++ [s])) (.expr e t.pos)

/-- The tokens are a block in braces. -/
inductive DerivesBlock : List Token → Block → Prop where
  | intro {o c : Token} {ts : List Token} {body : List Stmt} (ho : o.kind = .punct .openBrace)
      (h : DerivesStmts ts body) (hc : c.kind = .punct .closeBrace) :
      DerivesBlock (o :: (ts ++ [c])) ⟨body, o.pos⟩

/-- The tokens are statements one after the other. -/
inductive DerivesStmts : List Token → List Stmt → Prop where
  | nil : DerivesStmts [] []
  | cons {ts us : List Token} {s : Stmt} {body : List Stmt} (h : DerivesStmt ts s)
      (h' : DerivesStmts us body) : DerivesStmts (ts ++ us) (s :: body)

end

theorem DerivesBlock.exists_head {ts : List Token} {b : Block} (h : DerivesBlock ts b) :
    ∃ o us, ts = o :: us ∧ o.kind = .punct .openBrace := by
  obtain ⟨ho, -, -⟩ := h
  exact ⟨_, _, rfl, ho⟩

theorem DerivesStmt.exists_head {ts : List Token} {s : Stmt} (h : DerivesStmt ts s) :
    ∃ t us, ts = t :: us ∧ t.kind ≠ .punct .closeBrace := by
  cases h with
  | returns hk _ _ | declare hk _ _ _ => exact ⟨_, _, rfl, by simp [hk]⟩
  | block h =>
    obtain ⟨o, us, rfl, ho⟩ := h.exists_head
    exact ⟨o, us, rfl, by simp [ho]⟩
  | expr h _ =>
    have hother : ∀ k ∈ starters, k ≠ .punct .closeBrace := by decide
    obtain ⟨t, us, heq, ht⟩ := h.exists_head
    obtain ⟨rfl, rfl⟩ := List.cons.inj heq
    exact ⟨_, _, rfl, hother _ ht⟩

/-- The tokens are a function without parameters. -/
inductive DerivesFunction : List Token → Function → Prop where
  | intro {k n o c : Token} {ts : List Token} {b : Block} (hk : k.kind = .intKeyword)
      (hn : n.kind = .identifier) (ho : o.kind = .punct .openParen)
      (hc : c.kind = .punct .closeParen) (h : DerivesBlock ts b) :
      DerivesFunction (k :: n :: o :: c :: ts) ⟨⟨k.lexeme, k.pos⟩, n.lexeme, [], b, k.pos⟩

/-- The tokens are functions one after the other. -/
inductive DerivesUnit : List Token → List Function → Prop where
  | nil : DerivesUnit [] []
  | cons {ts us : List Token} {f : Function} {fs : List Function} (h : DerivesFunction ts f)
      (h' : DerivesUnit us fs) : DerivesUnit (ts ++ us) (f :: fs)

theorem tiers_eq : BinaryOp.tiers = levels.length :=
  rfl

theorem atTier?_iff {n : Nat} {p : Punctuator} {op : BinaryOp} :
    BinaryOp.atTier? n p = some op ↔ (p, op) ∈ levels.getD n [] := by
  constructor
  · intro h
    obtain ⟨hop, htier⟩ := Option.filter_eq_some_iff.1 h
    have hlisted : ∀ op', p.binary? = some op' → (p, op') ∈ levels.getD op'.tier [] := by
      cases p <;> simp [Punctuator.binary?, BinaryOp.tier, levels]
    rw [← beq_iff_eq.1 htier]
    exact hlisted op hop
  · intro h
    have hlooked : ∀ i : Fin levels.length, ∀ x ∈ levels.get i,
        BinaryOp.atTier? i x.1 = some x.2 := by decide
    by_cases hn : n < levels.length
    · rw [List.getD_eq_getElem?_getD, List.getElem?_eq_getElem hn] at h
      exact hlooked ⟨n, hn⟩ (p, op) h
    · rw [List.getD_eq_getElem?_getD, List.getElem?_eq_none (Nat.le_of_not_lt hn)] at h
      cases h

theorem assign?_iff {p : Punctuator} {op : AssignOp} :
    p.assign? = some op ↔ (p, op) ∈ assignSigns := by
  constructor
  · cases p <;> simp [Punctuator.assign?, assignSigns, eq_comm]
  · have hlooked : ∀ x ∈ assignSigns, x.1.assign? = some x.2 := by decide
    exact hlooked (p, op)

theorem sign?_iff {p : Punctuator} {op : UnaryOp} :
    p.sign? = some (some op) ↔ (p, op) ∈ signs := by
  constructor
  · cases p <;> simp [Punctuator.sign?, signs, eq_comm]
  · have hlooked : ∀ x ∈ signs, x.1.sign? = some (some x.2) := by decide
    exact hlooked (p, op)

theorem sign?_plus_iff {p : Punctuator} : p.sign? = some none ↔ p = .plus := by
  cases p <;> simp [Punctuator.sign?]

theorem step?_iff {p : Punctuator} {op : StepOp} : p.step? = some op ↔ (p, op) ∈ stepSigns := by
  constructor
  · cases p <;> simp [Punctuator.step?, stepSigns, eq_comm]
  · have hlooked : ∀ x ∈ stepSigns, x.1.step? = some x.2 := by decide
    exact hlooked (p, op)

theorem comma?_iff {p : Punctuator} {op : BinaryOp} :
    p.comma? = some op ↔ p = .comma ∧ op = .comma := by
  cases p <;> simp [Punctuator.comma?, eq_comm]

end SmallC.Grammar
