import SmallC.Proofs.Grammar.Soundness

/-!
# What is derived is read

Tokens that derive a tree are read as this tree, whatever stands behind them, as long as it cannot be
taken for a part of the last operand. A level that is a chain to the left is read up to a point of the
loop that collects its operands: from there the loop goes on with the chain derived so far. The loop
stops where what follows is none of its operators.
-/
namespace SmallC.Grammar

open Reader

namespace Outcome

variable {α β : Type} {m n : Nat} {r s : Reader}

/-- What an outcome hands on, without the proofs. -/
def result (o : Outcome n r α) : Option α × Reader :=
  (o.value, o.next)

theorem result_map {o : Outcome n r α} {a : α} (h : o.result = (some a, s)) (f : α → β) :
    (o.map f).result = (some (f a), s) := by
  obtain ⟨hvalue, hnext⟩ := Prod.mk.inj h
  simp [result, map, hvalue, hnext]

theorem result_andThen {o : Outcome m r α} {a : α} (h : o.result = (some a, s))
    {f : α → (t : Reader) → t.remaining + m ≤ r.remaining → Outcome n t β} {x : Option β × Reader}
    (hf : ∀ hlt, (f a s hlt).result = x) : (o.andThen f).result = x := by
  obtain ⟨value, next, le, lt⟩ := o
  obtain ⟨rfl, rfl⟩ := Prod.mk.inj h
  exact hf (lt rfl)

end Outcome

open Outcome

theorem Reader.operator?_eq {α : Type} {r : Reader} {t : Token} {rest : List Token} {p : Punctuator}
    (hr : r.rest = t :: rest) (hk : t.kind = .punct p) (table : Punctuator → Option α) :
    r.operator? table = table p := by
  simp [operator?, hr, hk]

theorem Reader.expect_result {r : Reader} (hc : r.Clean) {t : Token} {rest : List Token}
    (hr : r.rest = t :: rest) {kind : Kind} (hk : t.kind = kind) (wanted : Expectation) :
    ∃ s, After r [t] s ∧ (r.expect kind wanted).result = (some t, s) := by
  refine ⟨r.advance, hc.after_advance hr, ?_⟩
  unfold expect
  split
  · next h => cases hr.symm.trans h
  · next u us h =>
    obtain ⟨rfl, -⟩ := List.cons.inj (hr.symm.trans h)
    rw [if_pos hk]
    rfl

/-- The sign in front of the tokens, if there is one, is as told. -/
def FrontSign (P : Punctuator → Prop) (ts : List Token) : Prop :=
  ∀ t us p, ts = t :: us → t.kind = .punct p → P p

section FrontSign

variable {P Q : Punctuator → Prop} {ts : List Token}

theorem frontSign_cons {t : Token} {p : Punctuator} (hk : t.kind = .punct p) (h : P p) :
    FrontSign P (t :: ts) := by
  intro u us q heq hq
  obtain ⟨rfl, -⟩ := List.cons.inj heq
  obtain rfl := Kind.punct.inj (hk.symm.trans hq)
  exact h

theorem FrontSign.imp (h : FrontSign P ts) (himp : ∀ p, P p → Q p) : FrontSign Q ts :=
  fun t us p hts hk => himp p (h t us p hts hk)

theorem FrontSign.operator? {α : Type} {r : Reader} {table : Punctuator → Option α}
    (h : FrontSign (table · = none) r.rest) : r.operator? table = none := by
  cases hop : r.operator? table with
  | none => rfl
  | some a =>
    obtain ⟨t, us, p, hr, hk, ha⟩ := operator?_eq_some hop
    cases (h t us p hr hk).symm.trans ha

end FrontSign

/-- The sign is no part of the last operand of an expression of the level. -/
def Level.EndsAt : Level → Punctuator → Prop
  | .primary, _ | .stepped, _ => True
  | .unary, p => p.step? = none
  | .tier n, p => p.step? = none ∧ ∀ op, p.binary? = some op → op.tier ≤ n
  | .assignment, p | .expression, p => p.step? = none ∧ p.binary? = none ∧ p.assign? = none

/-- Reading an expression of the level. -/
def readLevel (r : Reader) : Level → Option Expr × Reader
  | .primary => (primary r).result
  | .stepped | .unary => (unary r).result
  | .tier n => (binary n r).result
  | .assignment => (assignment r).result
  | .expression => (expression r).result

/-- Going on with what may follow an expression of the level to make it longer. -/
def goOn (e : Expr) (r : Reader) : Level → Option Expr × Reader
  | .stepped => (steps e r).result
  | .tier n => (chain n e r).result
  | .expression => (commas e r).result
  | .primary | .unary | .assignment => (some e, r)

section Loops

variable {r s : Reader} {e left right : Expr} {n : Nat}

theorem steps_stop (h : r.operator? Punctuator.step? = none) :
    (steps e r).result = (some e, r) := by
  rw [steps]
  split
  · rfl
  · next h' => cases h.symm.trans h'

theorem steps_step {op : StepOp} (h : r.operator? Punctuator.step? = some op) :
    (steps e r).result = (steps (.unary (.after op) e r.pos) r.advance).result := by
  rw [steps]
  split
  · next h' => cases h.symm.trans h'
  · next h' =>
    obtain rfl := Option.some.inj (h.symm.trans h')
    rfl

theorem chain_stop (h : r.operator? (BinaryOp.atTier? n) = none) :
    (chain n e r).result = (some e, r) := by
  rw [chain]
  split
  · rfl
  · next h' => cases h.symm.trans h'

theorem chain_step {op : BinaryOp} (h : r.operator? (BinaryOp.atTier? n) = some op)
    (hright : (binary (n + 1) r.advance).result = (some right, s)) :
    (chain n left r).result = (chain n (.binary op left right r.pos) s).result := by
  rw [chain]
  split
  · next h' => cases h.symm.trans h'
  · next h' =>
    obtain rfl := Option.some.inj (h.symm.trans h')
    exact result_andThen hright fun _ => rfl

theorem commas_stop (h : r.operator? Punctuator.comma? = none) :
    (commas e r).result = (some e, r) := by
  rw [commas]
  split
  · rfl
  · next h' => cases h.symm.trans h'

theorem commas_step {op : BinaryOp} (h : r.operator? Punctuator.comma? = some op)
    (hright : (assignment r.advance).result = (some right, s)) :
    (commas left r).result = (commas (.binary op left right r.pos) s).result := by
  rw [commas]
  split
  · next h' => cases h.symm.trans h'
  · next h' =>
    obtain rfl := Option.some.inj (h.symm.trans h')
    exact result_andThen hright fun _ => rfl

theorem binary_of_tighter (hn : n < levels.length) (h : (binary (n + 1) r).result = (some e, s)) :
    (binary n r).result = (chain n e s).result := by
  rw [binary, if_pos (by rwa [tiers_eq])]
  exact result_andThen h fun _ => rfl

theorem assignment_stop (h : (binary 0 r).result = (some e, s))
    (hs : s.operator? Punctuator.assign? = none) : (assignment r).result = (some e, s) := by
  rw [assignment]
  refine result_andThen h fun _ => ?_
  split
  · rfl
  · next h' => cases hs.symm.trans h'

theorem assignment_step {t : Reader} {op : AssignOp} (h : (binary 0 r).result = (some left, s))
    (hs : s.operator? Punctuator.assign? = some op)
    (hright : (assignment s.advance).result = (some right, t)) :
    (assignment r).result = (some (.assign op left right s.pos), t) := by
  rw [assignment]
  refine result_andThen h fun _ => ?_
  split
  · next h' => cases hs.symm.trans h'
  · next h' =>
    obtain rfl := Option.some.inj (hs.symm.trans h')
    exact result_map hright _

end Loops

/-- The tokens are read as the expression, up to where it may go on. -/
def ReadsAs (level : Level) (ts : List Token) (e : Expr) : Prop :=
  ∀ r rest, r.Clean → r.rest = ts ++ rest → FrontSign level.EndsAt rest →
    ∃ s, After r ts s ∧ readLevel r level = goOn e s level

theorem Reader.After.rest_eq {r s : Reader} {ts rest : List Token} (h : After r ts s)
    (hr : r.rest = ts ++ rest) : s.rest = rest :=
  List.append_cancel_left (h.rest.symm.trans hr)

/-- An operand, the sign after it and another operand. -/
theorem Reader.After.over {r s s' u : Reader} {t : Token} {ts us : List Token} (h : After r ts s)
    (ht : After s [t] s') (h' : After s' us u) : After r (ts ++ t :: us) u := by
  have hall := (h.trans ht).trans h'
  rwa [List.append_assoc] at hall

theorem atTier?_eq_none {p : Punctuator} {n : Nat}
    (h : ∀ op, p.binary? = some op → op.tier < n) : BinaryOp.atTier? n p = none := by
  refine Option.filter_eq_none_iff.2 fun op hop heq => ?_
  exact absurd (beq_iff_eq.1 heq) (Nat.ne_of_lt (h op hop))

/-- A chain is read to its end if what follows is looser. -/
theorem ReadsAs.whole {n : Nat} {ts : List Token} {e : Expr} (h : ReadsAs (.tier n) ts e)
    {r : Reader} {rest : List Token} (hc : r.Clean) (hr : r.rest = ts ++ rest)
    (hlooser : FrontSign (fun p => p.step? = none ∧ ∀ op, p.binary? = some op → op.tier < n) rest) :
    ∃ s, After r ts s ∧ (binary n r).result = (some e, s) := by
  have hends : FrontSign (Level.tier n).EndsAt rest :=
    hlooser.imp fun p hp => ⟨hp.1, fun op hop => Nat.le_of_lt (hp.2 op hop)⟩
  obtain ⟨s, hs, hread⟩ := h r rest hc hr hends
  rw [← hs.rest_eq hr] at hlooser
  have hstop := (hlooser.imp fun p hp => atTier?_eq_none hp.2).operator?
  exact ⟨s, hs, hread.trans (chain_stop hstop)⟩

theorem endsAt_of_mem_level {p : Punctuator} {op : BinaryOp} {n : Nat}
    (h : (p, op) ∈ levels.getD n []) : (Level.tier n).EndsAt p := by
  obtain ⟨hop, htier⟩ := Option.filter_eq_some_iff.1 (atTier?_iff.2 h)
  constructor
  · cases p <;> first | rfl | cases hop
  · intro op' hop'
    obtain rfl := Option.some.inj (hop.symm.trans hop')
    exact Nat.le_of_eq (beq_iff_eq.1 htier)

theorem looser_of_mem_assignSigns {p : Punctuator} {op : AssignOp} (h : (p, op) ∈ assignSigns) :
    p.step? = none ∧ p.binary? = none := by
  have hop := assign?_iff.2 h
  cases p <;> first | exact ⟨rfl, rfl⟩ | cases hop

/-- What starts a primary expression is no sign before one. -/
theorem Derives.sign?_eq_none {ts rest : List Token} {e : Expr} (h : Derives .primary ts e)
    {r : Reader} (hr : r.rest = ts ++ rest) : r.operator? Punctuator.sign? = none := by
  cases h with
  | number hk => simp [operator?, hr, hk]
  | name hk => simp [operator?, hr, hk]
  | group hk _ _ => exact operator?_eq hr hk _

theorem unary_of_primary {r s : Reader} {e : Expr} (h : r.operator? Punctuator.sign? = none)
    (hread : (primary r).result = (some e, s)) : (unary r).result = (steps e s).result := by
  rw [unary]
  split
  · exact result_andThen hread fun _ => rfl
  · next h' => cases h.symm.trans h'
  · next h' => cases h.symm.trans h'

theorem unary_of_sign {r s : Reader} {e : Expr} {op : Option UnaryOp}
    (h : r.operator? Punctuator.sign? = some op) (hread : (unary r.advance).result = (some e, s)) :
    (unary r).result = (some (op.elim e (.unary · e r.pos)), s) := by
  rw [unary]
  split
  · next h' => cases h.symm.trans h'
  · next h' =>
    obtain rfl := Option.some.inj (h.symm.trans h')
    exact hread
  · next h' =>
    obtain rfl := Option.some.inj (h.symm.trans h')
    exact result_map hread _

theorem primary_cons {r : Reader} {t : Token} {rest : List Token} (hr : r.rest = t :: rest) :
    (primary r).result =
      match t.kind with
      | .punct .openParen =>
        ((expression r.advance).andThen fun e s _ =>
          (s.expect (.punct .closeParen) .groupClosing).map fun _ => e).result
      | .number => (some (.number t.lexeme t.pos), r.advance)
      | .identifier => (some (.var t.lexeme t.pos), r.advance)
      | _ => (none, r.note .expression) := by
  rw [primary]
  split
  · next h => cases hr.symm.trans h
  · next u us h =>
    obtain ⟨rfl, -⟩ := List.cons.inj (hr.symm.trans h)
    dsimp only
    cases t.kind with
    | punct p => cases p <;> rfl
    | _ => rfl

namespace ReadsAs

variable {ts us : List Token} {t : Token} {p : Punctuator} {e left right : Expr} {n : Nat}

/-- An expression is read to its end if it is followed by a sign that it cannot go on with. -/
theorem whole_expression (h : ReadsAs .expression ts e) {r : Reader} {rest : List Token}
    (hc : r.Clean) (hr : r.rest = ts ++ t :: rest) (hk : t.kind = .punct p)
    (hends : Level.expression.EndsAt p) (hcomma : p.comma? = none) :
    ∃ s, After r ts s ∧ (expression r).result = (some e, s) := by
  obtain ⟨s, hs, hread⟩ := h r _ hc hr (frontSign_cons hk hends)
  have hstop := (operator?_eq (hs.rest_eq hr) hk Punctuator.comma?).trans hcomma
  exact ⟨s, hs, hread.trans (commas_stop hstop)⟩

theorem group {o c : Token} (ho : o.kind = .punct .openParen) (h : ReadsAs .expression ts e)
    (hclose : c.kind = .punct .closeParen) : ReadsAs .primary (o :: (ts ++ [c])) e := by
  intro r rest hc hr _
  have ha := hc.after_advance hr
  have hca := hc.after ha
  have hra : r.advance.rest = ts ++ c :: rest := by simpa using ha.rest_eq hr
  obtain ⟨s, hs, hread⟩ := h.whole_expression hca hra hclose ⟨rfl, rfl, rfl⟩ rfl
  obtain ⟨u, hu, hexpect⟩ := expect_result (hca.after hs) (hs.rest_eq hra) hclose .groupClosing
  refine ⟨u, (ha.trans hs).trans hu, ?_⟩
  simp only [readLevel, goOn, primary_cons hr, ho]
  exact result_andThen hread fun _ => result_map hexpect _

theorem step {op : StepOp} (h : ReadsAs .stepped ts e) (hk : t.kind = .punct p)
    (hop : (p, op) ∈ stepSigns) : ReadsAs .stepped (ts ++ [t]) (.unary (.after op) e t.pos) := by
  intro r rest hc hr _
  rw [List.append_assoc] at hr
  obtain ⟨s, hs, hread⟩ := h r _ hc hr fun _ _ _ _ _ => trivial
  have hrs := hs.rest_eq hr
  have ha := (hc.after hs).after_advance hrs
  refine ⟨s.advance, hs.trans ha, hread.trans ?_⟩
  rw [← pos_eq hrs]
  exact steps_step ((operator?_eq hrs hk _).trans (step?_iff.2 hop))

theorem ofStepped (h : ReadsAs .stepped ts e) : ReadsAs .unary ts e := by
  intro r rest hc hr hends
  obtain ⟨s, hs, hread⟩ := h r rest hc hr fun _ _ _ _ _ => trivial
  rw [← hs.rest_eq hr] at hends
  exact ⟨s, hs, hread.trans (steps_stop hends.operator?)⟩

/-- A sign before an operand; it makes a node unless it is a plus. -/
theorem sign {op : Option UnaryOp} (hk : t.kind = .punct p) (hop : p.sign? = some op)
    (h : ReadsAs .unary ts e) : ReadsAs .unary (t :: ts) (op.elim e (.unary · e t.pos)) := by
  intro r rest hc hr hends
  have ha := hc.after_advance hr
  obtain ⟨s, hs, hread⟩ := h _ rest (hc.after ha) (ha.rest_eq hr) hends
  refine ⟨s, ha.trans hs, ?_⟩
  rw [← pos_eq hr]
  exact unary_of_sign ((operator?_eq hr hk _).trans hop) hread

theorem ofUnary (h : ReadsAs .unary ts e) : ReadsAs (.tier levels.length) ts e := by
  intro r rest hc hr hends
  obtain ⟨s, hs, hread⟩ := h r rest hc hr (hends.imp fun _ hp => hp.1)
  -- there is no operator of a tier that tight
  have hstop : s.operator? (BinaryOp.atTier? levels.length) = none := by
    refine FrontSign.operator? fun _ _ p _ _ => atTier?_eq_none fun op hop => ?_
    cases p <;> cases hop <;> decide
  refine ⟨s, hs, ?_⟩
  simp only [readLevel, goOn, chain_stop hstop]
  rw [binary]
  exact hread

/-- What ends a tier is looser than the operators of the next one. -/
theorem whole_tighter (h : ReadsAs (.tier (n + 1)) ts e) {r : Reader} {rest : List Token}
    (hc : r.Clean) (hr : r.rest = ts ++ rest) (hends : FrontSign (Level.tier n).EndsAt rest) :
    ∃ s, After r ts s ∧ (binary (n + 1) r).result = (some e, s) :=
  h.whole hc hr (hends.imp fun _ hp => ⟨hp.1, fun op hop => Nat.lt_succ_of_le (hp.2 op hop)⟩)

theorem ofTighter (hn : n < levels.length) (h : ReadsAs (.tier (n + 1)) ts e) :
    ReadsAs (.tier n) ts e := by
  intro r rest hc hr hends
  obtain ⟨s, hs, hread⟩ := h.whole_tighter hc hr hends
  exact ⟨s, hs, binary_of_tighter hn hread⟩

theorem chain {op : BinaryOp} (h : ReadsAs (.tier n) ts left) (hk : t.kind = .punct p)
    (hop : (p, op) ∈ levels.getD n []) (h' : ReadsAs (.tier (n + 1)) us right) :
    ReadsAs (.tier n) (ts ++ t :: us) (.binary op left right t.pos) := by
  intro r rest hc hr hends
  rw [List.append_assoc] at hr
  obtain ⟨s, hs, hread⟩ := h r _ hc hr (frontSign_cons hk (endsAt_of_mem_level hop))
  have hrs := hs.rest_eq hr
  have ha := (hc.after hs).after_advance hrs
  obtain ⟨u, hu, hright⟩ := h'.whole_tighter ((hc.after hs).after ha) (ha.rest_eq hrs) hends
  refine ⟨u, hs.over ha hu, hread.trans ?_⟩
  rw [← pos_eq hrs]
  exact chain_step ((operator?_eq hrs hk _).trans (atTier?_iff.2 hop)) hright

theorem ofTier (h : ReadsAs (.tier 0) ts e) : ReadsAs .assignment ts e := by
  intro r rest hc hr hends
  obtain ⟨s, hs, hread⟩ := h.whole hc hr (hends.imp fun p hp => ⟨hp.1, by simp [hp.2.1]⟩)
  rw [← hs.rest_eq hr] at hends
  exact ⟨s, hs, assignment_stop hread (hends.imp fun p hp => hp.2.2).operator?⟩

theorem assign {op : AssignOp} (h : ReadsAs (.tier 0) ts left) (hk : t.kind = .punct p)
    (hop : (p, op) ∈ assignSigns) (h' : ReadsAs .assignment us right) :
    ReadsAs .assignment (ts ++ t :: us) (.assign op left right t.pos) := by
  intro r rest hc hr hends
  rw [List.append_assoc] at hr
  obtain ⟨hstep, hbinary⟩ := looser_of_mem_assignSigns hop
  obtain ⟨s, hs, hread⟩ := h.whole hc hr (frontSign_cons hk ⟨hstep, by simp [hbinary]⟩)
  have hrs := hs.rest_eq hr
  have ha := (hc.after hs).after_advance hrs
  obtain ⟨u, hu, hright⟩ := h' _ rest ((hc.after hs).after ha) (ha.rest_eq hrs) hends
  refine ⟨u, hs.over ha hu, ?_⟩
  rw [← pos_eq hrs]
  exact assignment_step hread ((operator?_eq hrs hk _).trans (assign?_iff.2 hop)) hright

theorem ofAssignment (h : ReadsAs .assignment ts e) : ReadsAs .expression ts e := by
  intro r rest hc hr hends
  obtain ⟨s, hs, hread⟩ := h r rest hc hr hends
  refine ⟨s, hs, ?_⟩
  simp only [readLevel]
  rw [expression]
  exact result_andThen hread fun _ => rfl

theorem comma (h : ReadsAs .expression ts left) (hk : t.kind = .punct .comma)
    (h' : ReadsAs .assignment us right) :
    ReadsAs .expression (ts ++ t :: us) (.binary .comma left right t.pos) := by
  intro r rest hc hr hends
  rw [List.append_assoc] at hr
  obtain ⟨s, hs, hread⟩ := h r _ hc hr (frontSign_cons hk ⟨rfl, rfl, rfl⟩)
  have hrs := hs.rest_eq hr
  have ha := (hc.after hs).after_advance hrs
  obtain ⟨u, hu, hright⟩ := h' _ rest ((hc.after hs).after ha) (ha.rest_eq hrs) hends
  refine ⟨u, hs.over ha hu, hread.trans ?_⟩
  rw [← pos_eq hrs]
  exact commas_step (operator?_eq hrs hk _) hright

end ReadsAs

/-- Tokens that derive an expression of a level are read as it at this level. -/
theorem Derives.readsAs {level : Level} {ts : List Token} {e : Expr} (h : Derives level ts e) :
    ReadsAs level ts e := by
  induction h with
  | number hk | name hk =>
    intro r rest hc hr _
    refine ⟨r.advance, hc.after_advance hr, ?_⟩
    simp [readLevel, goOn, primary_cons hr, hk]
  | group ho _ hclose ih => exact .group ho ih hclose
  | ofPrimary h ih =>
    intro r rest hc hr hends
    obtain ⟨s, hs, hread⟩ := ih r rest hc hr hends
    exact ⟨s, hs, unary_of_primary (h.sign?_eq_none hr) hread⟩
  | step _ hk hop ih => exact ih.step hk hop
  | ofStepped _ ih => exact ih.ofStepped
  | plus hk _ ih => exact .sign hk rfl ih
  | sign hk hop _ ih => exact .sign hk (sign?_iff.2 hop) ih
  | ofUnary _ ih => exact ih.ofUnary
  | ofTighter hn _ ih => exact ih.ofTighter hn
  | chain _ hk hop _ ih ih' => exact ih.chain hk hop ih'
  | ofTier _ ih => exact ih.ofTier
  | assign _ hk hop _ ih ih' => exact ih.assign hk hop ih'
  | ofAssignment _ ih => exact ih.ofAssignment
  | comma _ hk _ ih ih' => exact ih.comma hk ih'

section Statements

variable {r : Reader} {ts rest : List Token} {e : Expr}

/-- An expression and the semicolon that ends its statement. -/
theorem Derives.statement_result (h : Derives .expression ts e) (hc : r.Clean) {t : Token}
    (hr : r.rest = ts ++ t :: rest) (ht : t.kind = .punct .semicolon) (wanted : Expectation)
    (f : Expr → Stmt) :
    ∃ s, After r (ts ++ [t]) s ∧ ((expression r).andThen fun e s _ =>
      (s.expect (.punct .semicolon) wanted).map fun _ => f e).result = (some (f e), s) := by
  obtain ⟨s, hs, hread⟩ := h.readsAs.whole_expression hc hr ht ⟨rfl, rfl, rfl⟩ rfl
  obtain ⟨u, hu, hexpect⟩ := expect_result (hc.after hs) (hs.rest_eq hr) ht wanted
  exact ⟨u, hs.trans hu, result_andThen hread fun _ => result_map hexpect _⟩

theorem DerivesInitial.initializer_result {init : Option Expr} (h : DerivesInitial ts init)
    (hc : r.Clean) {t : Token} (hr : r.rest = ts ++ t :: rest) (ht : t.kind = .punct .semicolon) :
    ∃ s, After r ts s ∧ (initializer r).result = (some init, s) := by
  unfold initializer
  cases h with
  | absent =>
    refine ⟨r, .refl r, ?_⟩
    split
    · rfl
    · next h' => cases (operator?_eq hr ht _).symm.trans h'
  | given ha h =>
    have hadv := hc.after_advance hr
    obtain ⟨s, hs, hread⟩ := h.readsAs r.advance _ (hc.after hadv) (hadv.rest_eq hr)
      (frontSign_cons ht ⟨rfl, rfl, rfl⟩)
    refine ⟨s, hadv.trans hs, ?_⟩
    split
    · next h' => cases (operator?_eq hr ha _).symm.trans h'
    · exact result_map hread _

theorem declaration_result (hc : r.Clean) {k n t : Token} {init : Option Expr}
    (hr : r.rest = k :: n :: (ts ++ t :: rest)) (hk : k.kind = .intKeyword)
    (hn : n.kind = .identifier) (h : DerivesInitial ts init) (ht : t.kind = .punct .semicolon) :
    ∃ s, After r (k :: n :: (ts ++ [t])) s ∧
      (declaration r).result = (some (.declare ⟨k.lexeme, k.pos⟩ n.lexeme init k.pos), s) := by
  obtain ⟨s, hs, htype⟩ := expect_result hc hr hk .typeName
  have hrs := hs.rest_eq hr
  have hcs := hc.after hs
  obtain ⟨u, hu, hname⟩ := expect_result hcs hrs hn .variableName
  have hru := hu.rest_eq hrs
  have hcu := hcs.after hu
  obtain ⟨v, hv, hread⟩ := h.initializer_result hcu hru ht
  obtain ⟨w, hw, hend⟩ := expect_result (hcu.after hv) (hv.rest_eq hru) ht .declarationEnd
  refine ⟨w, ((hs.trans hu).trans hv).trans hw, ?_⟩
  refine result_andThen (result_map htype _) fun _ => ?_
  refine result_andThen hname fun _ => ?_
  refine result_andThen hread fun _ => ?_
  rw [pos_eq hr]
  exact result_map hend _

theorem statement_cons {t : Token} (hr : r.rest = t :: rest) :
    (statement r).result =
      match t.kind with
      | .returnKeyword => (returnStatement r (rest_ne_nil_of_cons hr)).result
      | .intKeyword => (declaration r).result
      | .punct .openBrace => ((block r).map fun b => Stmt.block b.body b.pos).result
      | _ => (expressionStatement r).result := by
  rw [statement]
  split
  · next h => cases hr.symm.trans h
  · next u us h =>
    obtain ⟨rfl, -⟩ := List.cons.inj (hr.symm.trans h)
    cases t.kind with
    | punct p => cases p <;> rfl
    | _ => rfl

theorem statement_of_mem_starters {t : Token} (hr : r.rest = t :: rest) (ht : t.kind ∈ starters) :
    (statement r).result = (expressionStatement r).result := by
  have hother : ∀ k ∈ starters, k ≠ .returnKeyword ∧ k ≠ .intKeyword ∧ k ≠ .punct .openBrace := by
    decide
  obtain ⟨hreturn, hint, hbrace⟩ := hother _ ht
  rw [statement_cons hr]
  split
  · next hk => exact absurd hk hreturn
  · next hk => exact absurd hk hint
  · next hk => exact absurd hk hbrace
  · rfl

theorem statements_cons {s : Reader} {a : Stmt} (hk : r.kind ≠ .punct .closeBrace)
    (hend : ¬ r.atEnd = true) (h : (statement r).result = (some a, s)) :
    (statements r).result = ((statements s).map (a :: ·)).result := by
  rw [statements, dif_neg (not_or.2 ⟨hk, hend⟩)]
  split
  · next heq =>
    rw [heq] at h
    obtain ⟨hvalue, rfl⟩ := Prod.mk.inj h
    obtain rfl := Option.some.inj hvalue
    rfl
  · next heq =>
    rw [heq] at h
    cases (Prod.mk.inj h).1

end Statements

mutual

theorem DerivesStmt.statement_result {ts : List Token} {a : Stmt} (h : DerivesStmt ts a)
    {r : Reader} {rest : List Token} (hc : r.Clean) (hr : r.rest = ts ++ rest) :
    ∃ s, After r ts s ∧ (statement r).result = (some a, s) := by
  cases h with
  | @returns k t us e hk h ht =>
    have ha := hc.after_advance hr
    have hra : r.advance.rest = us ++ t :: rest := by simpa using ha.rest_eq hr
    obtain ⟨s, hs, hread⟩ := h.statement_result (hc.after ha) hra ht .returnEnd (.returns · r.pos)
    refine ⟨s, ha.trans hs, ?_⟩
    rw [statement_cons hr, ← pos_eq hr]
    simp only [hk]
    exact hread
  | @declare k n t us init hk hn h ht =>
    have hre : r.rest = k :: n :: (us ++ t :: rest) := by simpa using hr
    obtain ⟨s, hs, hread⟩ := declaration_result hc hre hk hn h ht
    refine ⟨s, hs, ?_⟩
    rw [statement_cons hr]
    simp only [hk]
    exact hread
  | block h =>
    obtain ⟨s, hs, hread⟩ := h.block_result hc hr
    refine ⟨s, hs, ?_⟩
    obtain ⟨o, us, hts, ho⟩ := h.exists_head
    rw [hts] at hr
    rw [statement_cons hr]
    simp only [ho]
    exact result_map hread _
  | @expr t u us e h ht =>
    obtain ⟨_, _, heq, hstart⟩ := h.exists_head
    obtain ⟨rfl, rfl⟩ := List.cons.inj heq
    have hre : r.rest = (t :: us) ++ u :: rest := by simpa using hr
    obtain ⟨s, hs, hread⟩ := h.statement_result hc hre ht .expressionEnd (.expr · r.pos)
    refine ⟨s, hs, ?_⟩
    rw [statement_of_mem_starters hr hstart, ← pos_eq hr]
    exact hread
termination_by 3 * ts.length + 1

theorem DerivesBlock.block_result {ts : List Token} {b : Block} (h : DerivesBlock ts b)
    {r : Reader} {rest : List Token} (hc : r.Clean) (hr : r.rest = ts ++ rest) :
    ∃ s, After r ts s ∧ (block r).result = (some b, s) := by
  cases h with
  | @intro o c us body ho h hclose =>
    obtain ⟨s, hs, hopening⟩ := expect_result hc hr ho .blockOpening
    have hcs := hc.after hs
    have hrs : s.rest = us ++ c :: rest := by simpa using hs.rest_eq hr
    obtain ⟨t, ht, hread⟩ := h.statements_result hcs hrs hclose
    obtain ⟨u, hu, hclosing⟩ := expect_result (hcs.after ht) (ht.rest_eq hrs) hclose .blockClosing
    refine ⟨u, (hs.trans ht).trans hu, ?_⟩
    rw [block, ← pos_eq hr]
    refine result_andThen hopening fun _ => ?_
    exact result_andThen hread fun _ => result_map hclosing _
termination_by 3 * ts.length + 0

theorem DerivesStmts.statements_result {ts : List Token} {body : List Stmt}
    (h : DerivesStmts ts body) {r : Reader} {rest : List Token} {c : Token} (hc : r.Clean)
    (hr : r.rest = ts ++ c :: rest) (hclose : c.kind = .punct .closeBrace) :
    ∃ s, After r ts s ∧ (statements r).result = (some body, s) := by
  cases h with
  | nil =>
    refine ⟨r, .refl r, ?_⟩
    rw [statements, dif_pos (.inl ((kind_eq hr).trans hclose))]
    rfl
  | @cons us vs a body h h' =>
    rw [List.append_assoc] at hr
    obtain ⟨u, ws, rfl, hu⟩ := h.exists_head
    have hmore : ¬ r.atEnd = true := by simp [hc.atEnd_iff, hr]
    rw [← kind_eq hr] at hu
    obtain ⟨s, hs, hread⟩ := h.statement_result hc hr
    obtain ⟨t, ht, hrest⟩ := h'.statements_result (hc.after hs) (hs.rest_eq hr) hclose
    exact ⟨t, hs.trans ht, (statements_cons hu hmore hread).trans (result_map hrest _)⟩
termination_by 3 * ts.length + 2

end

theorem DerivesFunction.function_result {ts : List Token} {f : Function} (h : DerivesFunction ts f)
    {r : Reader} {rest : List Token} (hc : r.Clean) (hr : r.rest = ts ++ rest) :
    ∃ s, After r ts s ∧ (function r).result = (some f, s) := by
  obtain ⟨hk, hn, ho, hclose, h⟩ := h
  obtain ⟨s, hs, htype⟩ := expect_result hc hr hk .typeName
  have hrs := hs.rest_eq hr
  have hcs := hc.after hs
  obtain ⟨t, ht, hname⟩ := expect_result hcs hrs hn .functionName
  have hrt := ht.rest_eq hrs
  have hct := hcs.after ht
  obtain ⟨u, hu, hopening⟩ := expect_result hct hrt ho .parameterOpening
  have hru := hu.rest_eq hrt
  have hcu := hct.after hu
  obtain ⟨v, hv, hclosing⟩ := expect_result hcu hru hclose .parameterClosing
  obtain ⟨w, hw, hread⟩ := h.block_result (hcu.after hv) (hv.rest_eq hru)
  refine ⟨w, (((hs.trans ht).trans hu).trans hv).trans hw, ?_⟩
  refine result_andThen (result_map htype _) fun _ => ?_
  refine result_andThen hname fun _ => ?_
  refine result_andThen hopening fun _ => ?_
  refine result_andThen hclosing fun _ => ?_
  rw [pos_eq hr]
  exact result_map hread _

theorem functions_cons {r s : Reader} {f : Function} (hend : ¬ r.atEnd = true)
    (h : (function r).result = (some f, s)) :
    functions r = (f :: (functions s).1, (functions s).2) := by
  rw [functions, dif_neg hend]
  split
  · next heq =>
    rw [heq] at h
    obtain ⟨hvalue, rfl⟩ := Prod.mk.inj h
    obtain rfl := Option.some.inj hvalue
    rfl
  · next heq =>
    rw [heq] at h
    cases (Prod.mk.inj h).1

theorem DerivesUnit.functions_eq {ts : List Token} {fs : List Function} (h : DerivesUnit ts fs) :
    ∀ {r : Reader}, r.Clean → r.rest = ts → ∃ s, After r ts s ∧ functions r = (fs, s) := by
  induction h with
  | nil =>
    intro r hc hr
    refine ⟨r, .refl r, ?_⟩
    rw [functions, dif_pos (hc.atEnd_iff.2 hr)]
  | @cons ts us f fs h _ ih =>
    intro r hc hr
    obtain ⟨s, hs, hread⟩ := h.function_result hc hr
    obtain ⟨t, ht, hrest⟩ := ih (hc.after hs) (hs.rest_eq hr)
    have hmore : ¬ r.atEnd = true := by
      obtain ⟨_, _, _, _, _⟩ := h
      simp [hc.atEnd_iff, hr]
    refine ⟨t, hs.trans ht, ?_⟩
    rw [functions_cons hmore hread, hrest]

end SmallC.Grammar
