import SmallC.Proofs.Grammar.Twins
import SmallC.Proofs.Grammar.Unfold

/-!
# Readers in accord

Every reading function comes to the same for twin readers, from expressions up to the functions of a whole
stream: the same tree but for the positions, over the same moves. An expression is read without a brace or a
semicolon, and a statement that is no block without a brace. Recovery is in accord as well: whether a
token was consumed since a statement began does not depend on how many invalid ones were passed over.
-/
namespace SmallC.Grammar

open Reader Outcome

variable {φ : Position → Position}

theorem Reader.alike_expect {K : Passage} {r r' : Reader} (h : Twin φ r r') {kind : Kind}
    (hkind : ∀ t : Token, t.kind = kind → K.value (.consume t)) (wanted : Expectation) :
    (r.expect kind wanted).Alike K (Token.relocate φ) (r'.expect kind wanted) := by
  obtain ⟨hr, hr'⟩ | ⟨t, ts, ts', hr, hr', -⟩ := h.rest_cases
  · rw [expect_of_nil hr, expect_of_nil hr']
    exact alike_fail
  · rw [expect_of_cons hr, expect_of_cons hr', t.kind_relocate]
    split
    · next hk => exact alike_consume (hkind _ ((kind_eq hr).trans hk))
    · exact alike_fail

theorem Reader.alike_expect_only {K : Kind → Prop} {r r' : Reader} (h : Twin φ r r') {kind : Kind} (hkind : K kind)
    (wanted : Expectation) :
    (r.expect kind wanted).Alike (.only K) (Token.relocate φ) (r'.expect kind wanted) := by
  refine alike_expect h (fun t ht => ?_) wanted
  subst ht
  exact hkind

/-- An operator is looked up in a table that has no brace and no semicolon in it. -/
theorem Reader.inner_of_operator {α : Type} {r : Reader} {table : Punctuator → Option α} {a : α}
    (h : r.operator? table = some a) (hopen : table .openBrace = none) (hclose : table .closeBrace = none)
    (hsemi : table .semicolon = none) : Inner r.kind := by
  obtain ⟨u, us, p, hr, hk, hp⟩ := operator?_eq_some h
  rw [kind_eq hr, hk]
  refine ⟨⟨?_, ?_⟩, ?_⟩ <;> rintro ⟨⟩
  · cases hopen.symm.trans hp
  · cases hclose.symm.trans hp
  · cases hsemi.symm.trans hp

theorem alike_steps {r r' : Reader} (h : Twin φ r r') (e : Expr) :
    (steps e r).Alike (.only Inner) (Expr.relocate φ) (steps (e.relocate φ) r') := by
  have hop' := h.operator? Punctuator.step?
  cases hop : r.operator? Punctuator.step? with
  | none =>
    rw [steps_of_none hop, steps_of_none (hop'.trans hop)]
    exact alike_done
  | some op =>
    have more := rest_ne_nil_of_operator hop
    have less := advance_lt more
    have hinner : Inner r.kind := inner_of_operator hop rfl rfl rfl
    rw [steps_of_some hop, steps_of_some (hop'.trans hop), h.pos]
    exact (alike_steps h.advance (.unary (.after op) e r.pos)).consumed more hinner _ _
termination_by r.remaining

mutual

theorem alike_primary {r r' : Reader} (h : Twin φ r r') :
    (primary r).Alike (.only Inner) (Expr.relocate φ) (primary r') := by
  obtain ⟨hr, hr'⟩ | ⟨t, ts, ts', hr, hr', -⟩ := h.rest_cases
  · rw [primary_of_nil hr, primary_of_nil hr']
    exact alike_fail
  · have left := rest_ne_nil_of_cons hr
    have less := advance_lt left
    rw [primary_of_cons hr, primary_of_cons hr', t.kind_relocate]
    have hfirst : r.kind = t.kind := kind_eq hr
    split
    · next hk =>
      have hopen : Inner r.kind := by
        rw [hfirst, hk]
        decide
      refine ((alike_expression h.advance).andThen h.advance (fun _ hm => hm) ?_).consumed left hopen _ _
      intro e s s' _ _ hs
      exact (alike_expect_only hs (by decide) _).map fun _ => rfl
    · next hk =>
      have hnumber : Inner r.kind := by
        rw [hfirst, hk]
        decide
      exact alike_consume hnumber
    · next hk =>
      have hname : Inner r.kind := by
        rw [hfirst, hk]
        decide
      exact alike_consume hname
    · exact alike_fail
termination_by (r.remaining, 0)

theorem alike_unary {r r' : Reader} (h : Twin φ r r') :
    (unary r).Alike (.only Inner) (Expr.relocate φ) (unary r') := by
  have hop' := h.operator? Punctuator.sign?
  cases hop : r.operator? Punctuator.sign? with
  | none =>
    rw [unary_of_none hop, unary_of_none (hop'.trans hop)]
    exact (alike_primary h).andThen h (fun _ hm => hm) fun e s s' _ _ hs => alike_steps hs e
  | some op =>
    have more := rest_ne_nil_of_operator hop
    have less := advance_lt more
    have hinner : Inner r.kind := inner_of_operator hop rfl rfl rfl
    cases op with
    | none =>
      rw [unary_of_plus hop, unary_of_plus (hop'.trans hop)]
      exact (alike_unary h.advance).consumed more hinner _ _
    | some op =>
      rw [unary_of_operator hop, unary_of_operator (hop'.trans hop), h.pos]
      refine ((alike_unary h.advance).map ?_).consumed more hinner _ _
      exact fun _ => rfl
termination_by (r.remaining, 1)

theorem alike_binary {r r' : Reader} (tier : Nat) (h : Twin φ r r') :
    (binary tier r).Alike (.only Inner) (Expr.relocate φ) (binary tier r') := by
  rw [binary.eq_def tier r, binary.eq_def tier r']
  split
  · exact (alike_binary (tier + 1) h).andThen h (fun _ hm => hm) fun left s s' hlt _ hs => alike_chain tier left hs
  · exact alike_unary h
termination_by (r.remaining, 2 + (BinaryOp.tiers - tier))

theorem alike_chain {r r' : Reader} (tier : Nat) (left : Expr) (h : Twin φ r r') :
    (chain tier left r).Alike (.only Inner) (Expr.relocate φ) (chain tier (left.relocate φ) r') := by
  have hop' := h.operator? (BinaryOp.atTier? tier)
  cases hop : r.operator? (BinaryOp.atTier? tier) with
  | none =>
    rw [chain_of_none hop, chain_of_none (hop'.trans hop)]
    exact alike_done
  | some op =>
    have more := rest_ne_nil_of_operator hop
    have less := advance_lt more
    have hinner : Inner r.kind := inner_of_operator hop rfl rfl rfl
    rw [chain_of_some hop, chain_of_some (hop'.trans hop), h.pos]
    exact ((alike_binary (tier + 1) h.advance).andThen h.advance (fun _ hm => hm) fun right s s' hlt _ hs =>
      alike_chain tier (.binary op left right r.pos) hs).consumed more hinner _ _
termination_by (r.remaining, 0)

theorem alike_assignment {r r' : Reader} (h : Twin φ r r') :
    (assignment r).Alike (.only Inner) (Expr.relocate φ) (assignment r') := by
  rw [assignment_eq r, assignment_eq r']
  refine (alike_binary 0 h).andThen h (fun _ hm => hm) fun target s s' hlt _ hs => ?_
  have hop' := hs.operator? Punctuator.assign?
  cases hop : s.operator? Punctuator.assign? with
  | none =>
    rw [assigned_of_none hop, assigned_of_none (hop'.trans hop)]
    exact alike_done
  | some op =>
    have more := rest_ne_nil_of_operator hop
    have less := advance_lt more
    have hinner : Inner s.kind := inner_of_operator hop rfl rfl rfl
    rw [assigned_of_some hop, assigned_of_some (hop'.trans hop), hs.pos]
    refine ((alike_assignment hs.advance).map ?_).consumed more hinner _ _
    exact fun _ => rfl
termination_by (r.remaining, 3 + BinaryOp.tiers)

theorem alike_expression {r r' : Reader} (h : Twin φ r r') :
    (expression r).Alike (.only Inner) (Expr.relocate φ) (expression r') := by
  rw [expression.eq_def r, expression.eq_def r']
  exact (alike_assignment h).andThen h (fun _ hm => hm) fun left s s' hlt _ hs => alike_commas left hs
termination_by (r.remaining, 4 + BinaryOp.tiers)

theorem alike_commas {r r' : Reader} (left : Expr) (h : Twin φ r r') :
    (commas left r).Alike (.only Inner) (Expr.relocate φ) (commas (left.relocate φ) r') := by
  have hop' := h.operator? Punctuator.comma?
  cases hop : r.operator? Punctuator.comma? with
  | none =>
    rw [commas_of_none hop, commas_of_none (hop'.trans hop)]
    exact alike_done
  | some op =>
    have more := rest_ne_nil_of_operator hop
    have less := advance_lt more
    have hinner : Inner r.kind := inner_of_operator hop rfl rfl rfl
    rw [commas_of_some hop, commas_of_some (hop'.trans hop), h.pos]
    exact ((alike_assignment h.advance).andThen h.advance (fun _ hm => hm) fun right s s' hlt _ hs =>
      alike_commas (.binary op left right r.pos) hs).consumed more hinner _ _
termination_by (r.remaining, 0)

end

namespace Reader

/-- The two have consumed tokens, or neither has. -/
theorem Along.remaining {r r' s s' : Reader} {ms : List Move} (hs : Along r r' ms s s')
    (h : Twin φ r r') : (s.remaining = r.remaining ∧ s'.remaining = r'.remaining) ∨
      (s.remaining < r.remaining ∧ s'.remaining < r'.remaining) := by
  induction hs with
  | refl => exact .inl ⟨rfl, rfl⟩
  | consume hs more ih =>
    have less := advance_lt more
    have less' := advance_lt ((h.along hs).rest_ne_nil more)
    omega
  | mend _ wanted ih => exact ih

theorem Along.ensureProgress {r r' s s' : Reader} {ms : List Move} (hs : Along r r' ms s s')
    (h : Twin φ r r') (more : r.rest ≠ []) :
    ∃ ns, Along r r' ns (s.ensureProgress r) (s'.ensureProgress r') := by
  unfold Reader.ensureProgress
  rcases hs.remaining h with ⟨same, same'⟩ | ⟨less, less'⟩
  · have left : s.rest ≠ [] := by
      apply List.length_pos_iff.1
      change 0 < s.remaining
      rw [same]
      exact List.length_pos_iff.2 more
    rw [if_pos same, if_pos same']
    exact ⟨_, hs.consume left⟩
  · -- how many tokens each has left may differ, but not whether it has fewer
    rw [if_neg (Nat.ne_of_lt less), if_neg (Nat.ne_of_lt less')]
    exact ⟨_, hs⟩

/-- A reader before a closing brace stays there. -/
theorem along_synchronize {r r' : Reader} (h : Twin φ r r') :
    ∃ ms, Along r r' ms r.synchronize r'.synchronize ∧ ∀ m ∈ ms, m.Consumes (· ≠ .punct .closeBrace) := by
  have hstop : (r'.last == .punct .semicolon || r'.atBoundary) =
      (r.last == .punct .semicolon || r.atBoundary) := by
    rw [h.last, atBoundary, atBoundary, h.kind]
  rw [synchronize.eq_def r, synchronize.eq_def r', hstop]
  simp only [h.atEnd]
  split
  · exact ⟨[], .refl, List.forall_mem_nil _⟩
  · next hend =>
    split
    · exact ⟨[], .refl, List.forall_mem_nil _⟩
    · next hgo =>
      have more := rest_ne_nil_of_atEnd hend
      have less := advance_lt more
      have hfirst : r.kind ≠ .punct .closeBrace := by
        intro hclose
        simp [atBoundary, hclose] at hgo
      obtain ⟨ms, hms, hno⟩ := along_synchronize h.advance
      exact ⟨_, (Along.consume .refl more).trans hms, List.forall_mem_cons.2 ⟨hfirst, hno⟩⟩
termination_by r.remaining

theorem along_skipDeclaration {r r' : Reader} (depth : Nat) (h : Twin φ r r') :
    ∃ ms, Along r r' ms (r.skipDeclaration depth) (r'.skipDeclaration depth) := by
  rw [skipDeclaration.eq_def depth r, skipDeclaration.eq_def depth r', h.kind]
  simp only [h.atEnd]
  split
  · exact ⟨_, .refl⟩
  · next hend =>
    split
    · exact ⟨_, .refl⟩
    · have more := rest_ne_nil_of_atEnd hend
      have less := advance_lt more
      obtain ⟨ms, hms⟩ := along_skipDeclaration _ h.advance
      exact ⟨_, (Along.consume .refl more).trans hms⟩
termination_by r.remaining

/-- After a mistake both skip the rest of the statement that began at `r` and `r'`. -/
theorem Along.recover {r r' s s' : Reader} {ms : List Move} (hs : Along r r' ms s s')
    (h : Twin φ r r') (more : r.rest ≠ []) (wanted : Expectation) :
    ∃ ns, Along r r' ns ((s.note wanted).recover r) ((s'.note wanted).recover r') := by
  have hmend := hs.mend wanted
  obtain ⟨ns, hsync, -⟩ := along_synchronize (h.along hmend)
  exact (hmend.trans hsync).ensureProgress h more

theorem Along.recoverDeclaration {r r' s s' : Reader} {ms : List Move} (hs : Along r r' ms s s')
    (h : Twin φ r r') (more : r.rest ≠ []) (wanted : Expectation) :
    ∃ ns, Along r r' ns ((s.note wanted).recoverDeclaration r)
      ((s'.note wanted).recoverDeclaration r') := by
  obtain ⟨ns, hprogress⟩ := (hs.mend wanted).ensureProgress h more
  obtain ⟨ks, hskip⟩ := along_skipDeclaration 0 (h.along hprogress)
  exact ⟨_, hprogress.trans hskip⟩

end Reader

theorem alike_typeName {r r' : Reader} (h : Twin φ r r') :
    (typeName r).Alike (.only Inner) (TypeName.relocate φ) (typeName r') :=
  (alike_expect_only h (by decide) _).map fun _ => rfl

theorem alike_initializer {r r' : Reader} (h : Twin φ r r') :
    (initializer r).Alike (.only Inner) (Option.map (Expr.relocate φ)) (initializer r') := by
  have hop' := h.operator? assign?
  cases hop : r.operator? assign? with
  | none =>
    rw [initializer_of_none hop, initializer_of_none (hop'.trans hop)]
    exact alike_done
  | some op =>
    have more := rest_ne_nil_of_operator hop
    have hinner : Inner r.kind := inner_of_operator hop rfl rfl rfl
    rw [initializer_of_some hop, initializer_of_some (hop'.trans hop)]
    refine ((alike_assignment h.advance).map ?_).consumed more hinner _ _
    exact fun _ => rfl

/-- The semicolon that a statement ends with. -/
theorem Reader.alike_semicolon {r r' : Reader} (h : Twin φ r r') (wanted : Expectation) :
    (r.expect (.punct .semicolon) wanted).Alike .statement (Token.relocate φ)
      (r'.expect (.punct .semicolon) wanted) := by
  refine alike_expect h (fun t ht => ?_) wanted
  have hplain : Plain t.kind := by
    rw [ht]
    decide
  exact hplain

theorem alike_declaration {r r' : Reader} (h : Twin φ r r') :
    (declaration r).Alike .statement (Stmt.relocate φ) (declaration r') := by
  refine (alike_typeName h).andThen h (fun _ hm => hm) fun type s s' _ _ hs => ?_
  refine (alike_expect_only hs (by decide) _).andThen hs (fun _ hm => hm) fun name t t' _ _ ht => ?_
  refine (alike_initializer ht).andThen ht (fun _ hm => hm) fun init u u' _ _ hu => ?_
  refine (alike_semicolon hu _).map fun _ => ?_
  rw [h.pos]
  rfl

theorem alike_returnStatement {r r' : Reader} (h : Twin φ r r') (hk : r.kind = .returnKeyword)
    (more : r.rest ≠ []) (more' : r'.rest ≠ []) :
    (returnStatement r more).Alike .statement (Stmt.relocate φ) (returnStatement r' more') := by
  have hreturn : Inner r.kind := by
    rw [hk]
    decide
  unfold returnStatement
  refine ((alike_expression h.advance).andThen h.advance (fun _ hm => hm) ?_).consumed more hreturn _ _
  intro value s s' _ _ hs
  refine (alike_semicolon hs _).map fun _ => ?_
  rw [h.pos]
  rfl

theorem alike_expressionStatement {r r' : Reader} (h : Twin φ r r') :
    (expressionStatement r).Alike .statement (Stmt.relocate φ) (expressionStatement r') := by
  refine (alike_expression h).andThen h (fun _ hm => hm) fun value s s' _ _ hs => ?_
  refine (alike_semicolon hs _).map fun _ => ?_
  rw [h.pos]
  rfl

mutual

theorem alike_statement {r r' : Reader} (h : Twin φ r r') :
    (statement r).Alike .any (Stmt.relocate φ) (statement r') := by
  obtain ⟨hr, hr'⟩ | ⟨t, ts, ts', hr, hr', -⟩ := h.rest_cases
  · rw [statement_of_nil hr, statement_of_nil hr']
    exact (alike_expressionStatement h).any
  · rw [statement_of_cons hr, statement_of_cons hr', t.kind_relocate]
    split
    · next hk => exact (alike_returnStatement h ((kind_eq hr).trans hk) _ _).any
    · exact (alike_declaration h).any
    · exact (alike_block h).map fun _ => rfl
    · exact (alike_expressionStatement h).any
termination_by (r.remaining, 1)

theorem alike_block {r r' : Reader} (h : Twin φ r r') :
    (block r).Alike .any (Block.relocate φ) (block r') := by
  rw [block.eq_def r, block.eq_def r']
  refine (alike_expect (K := .any) h (fun _ _ => trivial) _).andThen h (fun _ _ => trivial) fun _ s s' hlt _ hs => ?_
  refine (alike_statements hs).andThen hs (fun _ _ => trivial) fun body t t' _ _ ht => ?_
  refine (alike_expect ht (fun _ _ => trivial) _).map fun _ => ?_
  rw [h.pos]
  rfl
termination_by (r.remaining, 0)

theorem alike_statements {r r' : Reader} (h : Twin φ r r') :
    (statements r).Alike .any (Stmt.relocateAll φ) (statements r') := by
  by_cases hend : r.kind = .punct .closeBrace ∨ r.atEnd = true
  · rw [statements_of_end hend, statements_of_end (by rwa [h.kind, h.atEnd])]
    exact alike_done
  · have hend' : ¬ (r'.kind = .punct .closeBrace ∨ r'.atEnd = true) := by rwa [h.kind, h.atEnd]
    have more := rest_ne_nil_of_atEnd (not_or.1 hend).2
    have hstatement := alike_statement h
    rcases ho : statement r with ⟨value, next, le, lt⟩
    rcases ho' : statement r' with ⟨value', next', le', lt'⟩
    rw [ho, ho'] at hstatement
    cases hstatement with
    | @value s ms read read' along _ =>
      obtain rfl : value = some s := read
      obtain rfl : value' = some (s.relocate φ) := read'
      have less := lt rfl
      rw [statements_of_value hend ho, statements_of_value hend' ho']
      refine ((alike_statements (h.along along)).map ?_).since along (fun _ _ => trivial) _ _
      exact fun _ => rfl
    | @broken ms s s' wanted lost lost' along _ hnext hnext' =>
      -- the mistake and the recovery make one move, behind which the readers are together again
      obtain rfl : value = none := lost
      obtain rfl : value' = none := lost'
      obtain rfl : next = s.note wanted := hnext
      obtain rfl : next' = s'.note wanted := hnext'
      have less := recover_lt le more
      obtain ⟨ns, hrecover⟩ := along.recover h more wanted
      rw [statements_of_mistake hend ho, statements_of_mistake hend' ho']
      exact (alike_statements (h.along hrecover)).since hrecover (fun _ _ => trivial) _ _
termination_by (r.remaining, 2)

end

theorem alike_function {r r' : Reader} (h : Twin φ r r') :
    (function r).Alike .any (Function.relocate φ) (function r') := by
  refine (alike_typeName h).andThen h (fun _ _ => trivial) fun type s s' _ _ hs => ?_
  refine (alike_expect (K := .any) hs (fun _ _ => trivial) _).andThen hs (fun _ _ => trivial) fun name t t' _ _ ht => ?_
  refine (alike_expect (K := .any) ht (fun _ _ => trivial) _).andThen ht (fun _ _ => trivial) fun _ u u' _ _ hu => ?_
  refine (alike_expect (K := .any) hu (fun _ _ => trivial) _).andThen hu (fun _ _ => trivial) fun _ v v' _ _ hv => ?_
  refine (alike_block hv).map fun _ => ?_
  rw [h.pos]
  rfl

/-- Twin readers read the same functions, over the same moves. -/
theorem accord_functions {r r' : Reader} (h : Twin φ r r') :
    (functions r').1 = (functions r).1.map (Function.relocate φ) ∧
      ∃ ms, Along r r' ms (functions r).2 (functions r').2 := by
  by_cases hend : r.atEnd = true
  · rw [functions_of_end hend, functions_of_end (h.atEnd.trans hend)]
    exact ⟨rfl, _, .refl⟩
  · have hend' : ¬ r'.atEnd = true := by rwa [h.atEnd]
    have more := rest_ne_nil_of_atEnd hend
    have hfunction := alike_function h
    rcases ho : function r with ⟨value, next, le, lt⟩
    rcases ho' : function r' with ⟨value', next', le', lt'⟩
    rw [ho, ho'] at hfunction
    cases hfunction with
    | @value f ms read read' along _ =>
      obtain rfl : value = some f := read
      obtain rfl : value' = some (f.relocate φ) := read'
      have less := lt rfl
      obtain ⟨htree, ns, hns⟩ := accord_functions (h.along along)
      rw [functions_of_value hend ho, functions_of_value hend' ho', htree]
      exact ⟨rfl, _, along.trans hns⟩
    | @broken ms s s' wanted lost lost' along _ hnext hnext' =>
      obtain rfl : value = none := lost
      obtain rfl : value' = none := lost'
      obtain rfl : next = s.note wanted := hnext
      obtain rfl : next' = s'.note wanted := hnext'
      have less := recoverDeclaration_lt le more
      obtain ⟨ns, hrecover⟩ := along.recoverDeclaration h more wanted
      obtain ⟨htree, ks, hks⟩ := accord_functions (h.along hrecover)
      rw [functions_of_mistake hend ho, functions_of_mistake hend' ho', htree]
      exact ⟨rfl, _, hrecover.trans hks⟩
termination_by r.remaining

end SmallC.Grammar
