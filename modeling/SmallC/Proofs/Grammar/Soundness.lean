import SmallC.Proofs.Grammar.Derivation
import SmallC.Proofs.Grammar.Moves

/-!
# What is read is derived

On a stream without invalid tokens, a reading function that has a value has read it from tokens that
derive it. `Outcome.Reads` says so for one outcome and is put together along the combinators. A loop
that collects operands to the left reads what makes a derivation longer. Broken statements are left out
of a block, so from statements on this holds as long as there is no fault: `Outcome.Sound`.
-/
namespace SmallC.Grammar

namespace Reader

/-- None of the tokens left is invalid or marks an end. -/
def Clean (r : Reader) : Prop :=
  ∀ t ∈ r.rest, t.kind ≠ .invalid ∧ t.kind ≠ .endOfFile

/-- The second reader has consumed the tokens, and nothing has been remarked on. -/
structure After (r : Reader) (ts : List Token) (s : Reader) : Prop where
  rest : r.rest = ts ++ s.rest
  remarks : s.remarks = r.remarks

variable {r s t : Reader} {ts us : List Token}

theorem After.refl (r : Reader) : After r [] r :=
  ⟨rfl, rfl⟩

theorem After.trans (h : After r ts s) (h' : After s us t) : After r (ts ++ us) t := by
  refine ⟨?_, h'.remarks.trans h.remarks⟩
  rw [h.rest, h'.rest, List.append_assoc]

theorem Clean.settled (hc : r.Clean) : r.Settled := by
  intro t ht
  have hvalid := (hc t (List.mem_of_mem_head? ht)).1
  simp [isValid, hvalid]

theorem Clean.after (hc : r.Clean) (h : After r ts s) : s.Clean := by
  intro t ht
  refine hc t ?_
  rw [h.rest]
  exact List.mem_append_right ts ht

/-- Where no token is invalid, nothing is passed over. -/
theorem settle_rest (hc : r.Clean) : r.settle.rest = r.rest ∧ r.settle.remarks = r.remarks := by
  cases hr : r.rest with
  | nil => simp [settle, hr]
  | cons t rest =>
    have ht : (t.kind == .invalid) = false := beq_eq_false_iff_ne.2 (hc t (by simp [hr])).1
    simp [settle, hr, ht]

theorem Clean.after_advance (hc : r.Clean) {t : Token} {rest : List Token} (h : r.rest = t :: rest) :
    After r [t] r.advance := by
  have hc' : Clean { r with rest, last := t.kind } :=
    fun u hu => hc u (h ▸ List.mem_cons_of_mem t hu)
  obtain ⟨hrest, hremarks⟩ := settle_rest hc'
  have hadvance : r.advance = settle { r with rest, last := t.kind } := by
    simp only [advance, kind, lookahead, h, List.tail_cons, List.headD_cons]
  constructor
  · rw [hadvance, hrest, h]
    rfl
  · rw [hadvance, hremarks]

end Reader

open Reader

namespace Outcome

variable {α β : Type} {m n : Nat} {r t : Reader} {D : List Token → α → Prop}
  {E : List Token → β → Prop}

/-- A value was read from tokens for which it is right. -/
def Reads (o : Outcome n r α) (D : List Token → α → Prop) : Prop :=
  ∀ a, o.value = some a → ∃ ts, After r ts o.next ∧ D ts a

theorem reads_done {a : α} (h : D [] a) : (done r a).Reads D := by
  intro b hb
  obtain rfl := Option.some.inj hb
  exact ⟨[], .refl r, h⟩

theorem reads_consume (hc : r.Clean) {u : Token} {rest : List Token} (hr : r.rest = u :: rest)
    {hne : r.rest ≠ []} {a : α} (h : D [u] a) : (consume r hne a).Reads D := by
  intro b hb
  obtain rfl := Option.some.inj hb
  exact ⟨[u], hc.after_advance hr, h⟩

theorem reads_fail (wanted : Expectation) : (fail r wanted : Outcome n r α).Reads D :=
  fun _ hb => nomatch hb

theorem Reads.map {o : Outcome n r α} {f : α → β} (h : o.Reads fun ts a => E ts (f a)) :
    (o.map f).Reads E := by
  intro b hb
  obtain ⟨a, ha, rfl⟩ := Option.map_eq_some_iff.1 hb
  exact h a ha

theorem Reads.since {o : Outcome n t α} {ts : List Token} (ha : After r ts t)
    (h : o.Reads fun us a => D (ts ++ us) a) (hlt : t.remaining + m ≤ r.remaining) :
    (since hlt o).Reads D := by
  intro a hv
  obtain ⟨us, hus, hd⟩ := h a hv
  exact ⟨ts ++ us, ha.trans hus, hd⟩

theorem Reads.andThen {o : Outcome m r α} (h : o.Reads D)
    {f : α → (t : Reader) → t.remaining + m ≤ r.remaining → Outcome n t β}
    (hf : ∀ a t hlt ts, After r ts t → D ts a → (f a t hlt).Reads fun us b => E (ts ++ us) b) :
    (o.andThen f).Reads E := by
  obtain ⟨value, next, le, lt⟩ := o
  cases value with
  | none => exact fun _ hb => nomatch hb
  | some a =>
    obtain ⟨ts, hts, hd⟩ := h a rfl
    exact Reads.since hts (hf a next (lt rfl) ts hts hd) (lt rfl)

end Outcome

open Outcome

theorem Reader.reads_expect {r : Reader} (hc : r.Clean) (kind : Kind) (wanted : Expectation) :
    (r.expect kind wanted).Reads fun ts t => ts = [t] ∧ t.kind = kind := by
  unfold expect
  split
  · exact reads_fail wanted
  · next t rest hr =>
    split
    · next hk => exact reads_consume hc hr ⟨rfl, hk⟩
    · exact reads_fail wanted

/-- What a loop reads that has an operand of the level already. -/
def Extends (level : Level) (operand : Expr) (us : List Token) (e : Expr) : Prop :=
  ∀ ts, Derives level ts operand → Derives level (ts ++ us) e

theorem extends_nil (level : Level) (operand : Expr) : Extends level operand [] operand := by
  intro ts h
  rwa [List.append_nil]

theorem reads_steps {r : Reader} (hc : r.Clean) (operand : Expr) :
    (steps operand r).Reads (Extends .stepped operand) := by
  rw [steps]
  split
  · exact reads_done (extends_nil _ _)
  · next op h =>
    have less := advance_lt (rest_ne_nil_of_operator h)
    obtain ⟨t, rest, p, hr, hk, hp⟩ := operator?_eq_some h
    have ha := hc.after_advance hr
    refine Reads.since ha (fun e he => ?_) _
    obtain ⟨us, hus, hext⟩ := reads_steps (hc.after ha) (.unary (.after op) operand r.pos) e he
    refine ⟨us, hus, fun ts hts => ?_⟩
    rw [← List.append_assoc]
    refine hext _ ?_
    rw [pos_eq hr]
    exact .step hts hk (step?_iff.1 hp)
termination_by r.remaining

theorem level_lt {n : Nat} {p : Punctuator} {op : BinaryOp} (h : (p, op) ∈ levels.getD n []) :
    n < levels.length := by
  by_cases hn : n < levels.length
  · exact hn
  · rw [List.getD_eq_getElem?_getD, List.getElem?_eq_none (Nat.le_of_not_lt hn)] at h
    cases h

mutual

theorem reads_primary {r : Reader} (hc : r.Clean) : (primary r).Reads (Derives .primary) := by
  rw [primary]
  split
  · exact reads_fail _
  · next t ts hr =>
    have left := rest_ne_nil_of_cons hr
    have less := advance_lt left
    have ha := hc.after_advance hr
    dsimp only
    split
    · next hk =>
      refine Reads.since ha ?_ _
      refine (reads_expression (hc.after ha)).andThen fun e s hlt us hus he => ?_
      refine Reads.map fun c hclose => ?_
      obtain ⟨_, hafter, rfl, hck⟩ := reads_expect ((hc.after ha).after hus) _ _ c hclose
      exact ⟨[c], hafter, .group hk he hck⟩
    · next hk => exact reads_consume hc hr (.number hk)
    · next hk => exact reads_consume hc hr (.name hk)
    · exact reads_fail _
termination_by (r.remaining, 0)

theorem reads_unary {r : Reader} (hc : r.Clean) : (unary r).Reads (Derives .unary) := by
  rw [unary]
  split
  · refine (reads_primary hc).andThen fun e s hlt ts hts he => ?_
    intro e' he'
    obtain ⟨us, hus, hext⟩ := reads_steps (hc.after hts) e e' he'
    exact ⟨us, hus, .ofStepped (hext ts (.ofPrimary he))⟩
  · next h =>
    have less := advance_lt (rest_ne_nil_of_operator h)
    obtain ⟨t, rest, p, hr, hk, hp⟩ := operator?_eq_some h
    have ha := hc.after_advance hr
    refine Reads.since ha (fun e he => ?_) _
    obtain ⟨us, hus, hd⟩ := reads_unary (hc.after ha) e he
    rw [sign?_plus_iff.1 hp] at hk
    exact ⟨us, hus, .plus hk hd⟩
  · next op h =>
    have less := advance_lt (rest_ne_nil_of_operator h)
    obtain ⟨t, rest, p, hr, hk, hp⟩ := operator?_eq_some h
    have ha := hc.after_advance hr
    refine Reads.since ha (Reads.map fun e he => ?_) _
    obtain ⟨us, hus, hd⟩ := reads_unary (hc.after ha) e he
    rw [pos_eq hr]
    exact ⟨us, hus, .sign hk (sign?_iff.1 hp) hd⟩
termination_by (r.remaining, 1)

theorem reads_binary {r : Reader} (hc : r.Clean) {tier : Nat} (ht : tier ≤ levels.length) :
    (binary tier r).Reads (Derives (.tier tier)) := by
  rw [binary]
  split
  · next hlt =>
    refine (reads_binary hc hlt).andThen fun left s hlt' ts hts hl => ?_
    intro e he
    obtain ⟨us, hus, hext⟩ := reads_chain (hc.after hts) tier left e he
    exact ⟨us, hus, hext ts (.ofTighter hlt hl)⟩
  · next hge =>
    intro e he
    obtain ⟨us, hus, hd⟩ := reads_unary hc e he
    obtain rfl : tier = levels.length := Nat.le_antisymm ht (Nat.le_of_not_lt hge)
    exact ⟨us, hus, .ofUnary hd⟩
termination_by (r.remaining, 2 + (BinaryOp.tiers - tier))

theorem reads_chain {r : Reader} (hc : r.Clean) (tier : Nat) (left : Expr) :
    (chain tier left r).Reads (Extends (.tier tier) left) := by
  rw [chain]
  split
  · exact reads_done (extends_nil _ _)
  · next op h =>
    have less := advance_lt (rest_ne_nil_of_operator h)
    obtain ⟨t, rest, p, hr, hk, hp⟩ := operator?_eq_some h
    have hop := atTier?_iff.1 hp
    have ha := hc.after_advance hr
    refine Reads.since ha ?_ _
    refine (reads_binary (hc.after ha) (level_lt hop)).andThen fun right s hlt us hus hright => ?_
    intro e he
    obtain ⟨vs, hvs, hext⟩ :=
      reads_chain ((hc.after ha).after hus) tier (.binary op left right r.pos) e he
    refine ⟨vs, hvs, fun ts hts => ?_⟩
    have hlonger : Derives (.tier tier) (ts ++ t :: us) (.binary op left right r.pos) := by
      rw [pos_eq hr]
      exact .chain hts hk hop hright
    simpa using hext _ hlonger
termination_by (r.remaining, 0)

theorem reads_assignment {r : Reader} (hc : r.Clean) :
    (assignment r).Reads (Derives .assignment) := by
  rw [assignment]
  refine (reads_binary hc (Nat.zero_le _)).andThen fun target s hlt ts hts htarget => ?_
  split
  · refine reads_done ?_
    rw [List.append_nil]
    exact .ofTier htarget
  · next op h =>
    have less := advance_lt (rest_ne_nil_of_operator h)
    obtain ⟨t, rest, p, hr, hk, hp⟩ := operator?_eq_some h
    have ha := (hc.after hts).after_advance hr
    refine Reads.since ha (Reads.map fun value hv => ?_) _
    obtain ⟨us, hus, hd⟩ := reads_assignment ((hc.after hts).after ha) value hv
    rw [pos_eq hr]
    exact ⟨us, hus, .assign htarget hk (assign?_iff.1 hp) hd⟩
termination_by (r.remaining, 3 + BinaryOp.tiers)

theorem reads_expression {r : Reader} (hc : r.Clean) :
    (expression r).Reads (Derives .expression) := by
  rw [expression]
  refine (reads_assignment hc).andThen fun left s hlt ts hts hl => ?_
  intro e he
  obtain ⟨us, hus, hext⟩ := reads_commas (hc.after hts) left e he
  exact ⟨us, hus, hext ts (.ofAssignment hl)⟩
termination_by (r.remaining, 4 + BinaryOp.tiers)

theorem reads_commas {r : Reader} (hc : r.Clean) (left : Expr) :
    (commas left r).Reads (Extends .expression left) := by
  rw [commas]
  split
  · exact reads_done (extends_nil _ _)
  · next op h =>
    have less := advance_lt (rest_ne_nil_of_operator h)
    obtain ⟨t, rest, p, hr, hk, hp⟩ := operator?_eq_some h
    obtain ⟨rfl, rfl⟩ := comma?_iff.1 hp
    have ha := hc.after_advance hr
    refine Reads.since ha ?_ _
    refine (reads_assignment (hc.after ha)).andThen fun right s hlt us hus hright => ?_
    intro e he
    obtain ⟨vs, hvs, hext⟩ :=
      reads_commas ((hc.after ha).after hus) (.binary .comma left right r.pos) e he
    refine ⟨vs, hvs, fun ts hts => ?_⟩
    have hlonger : Derives .expression (ts ++ t :: us) (.binary .comma left right r.pos) := by
      rw [pos_eq hr]
      exact .comma hts hk hright
    simpa using hext _ hlonger
termination_by (r.remaining, 0)

end

namespace Outcome

variable {α β : Type} {m n : Nat} {r t : Reader} {D : List Token → α → Prop}
  {E : List Token → β → Prop}

/-- A value was read from tokens for which it is right, or there was a fault. -/
def Sound (o : Outcome n r α) (D : List Token → α → Prop) : Prop :=
  ¬ o.next.Faulty → o.Reads D

theorem Reads.sound {o : Outcome n r α} (h : o.Reads D) : o.Sound D :=
  fun _ => h

theorem Sound.map {o : Outcome n r α} {f : α → β} (h : o.Sound fun ts a => E ts (f a)) :
    (o.map f).Sound E :=
  fun hok => (h hok).map

theorem Reads.andThen_sound {o : Outcome m r α} (h : o.Reads D)
    {f : α → (t : Reader) → t.remaining + m ≤ r.remaining → Outcome n t β}
    (hf : ∀ a t hlt ts, After r ts t → D ts a → (f a t hlt).Sound fun us b => E (ts ++ us) b) :
    (o.andThen f).Sound E := by
  obtain ⟨value, next, le, lt⟩ := o
  cases value with
  | none => exact fun _ _ hb => nomatch hb
  | some a =>
    obtain ⟨ts, hts, hd⟩ := h a rfl
    exact fun hok => (hf a next (lt rfl) ts hts hd hok).since hts (lt rfl)

theorem Sound.andThen {o : Outcome m r α} (h : o.Sound D)
    {f : α → (t : Reader) → t.remaining + m ≤ r.remaining → Outcome n t β}
    (hmoves : ∀ a t hlt, Moves t (f a t hlt).next)
    (hf : ∀ a t hlt ts, After r ts t → D ts a → (f a t hlt).Sound fun us b => E (ts ++ us) b) :
    (o.andThen f).Sound E := by
  obtain ⟨value, next, le, lt⟩ := o
  cases value with
  | none => exact fun _ _ hb => nomatch hb
  | some a =>
    intro hok
    -- a fault before this point would still be there
    have hbefore : ¬ next.Faulty := fun hn => hok ((hmoves a next (lt rfl)).faulty hn)
    obtain ⟨ts, hts, hd⟩ := h hbefore a rfl
    exact (hf a next (lt rfl) ts hts hd hok).since hts (lt rfl)

end Outcome

theorem reads_typeName {r : Reader} (hc : r.Clean) :
    (typeName r).Reads fun ts type =>
      ∃ k : Token, ts = [k] ∧ k.kind = .intKeyword ∧ type = ⟨k.lexeme, k.pos⟩ := by
  refine Reads.map fun k hk => ?_
  obtain ⟨ts, hts, rfl, hkind⟩ := reads_expect hc _ _ k hk
  exact ⟨[k], hts, k, rfl, hkind, rfl⟩

theorem reads_initializer {r : Reader} (hc : r.Clean) : (initializer r).Reads DerivesInitial := by
  unfold initializer
  split
  · exact reads_done .absent
  · next h =>
    obtain ⟨a, rest, p, hr, hk, hp⟩ := operator?_eq_some h
    obtain rfl : p = .assign := by
      by_cases hpa : p = .assign
      · exact hpa
      · rw [if_neg hpa] at hp
        cases hp
    have ha := hc.after_advance hr
    refine Reads.since ha (Reads.map fun e he => ?_) _
    obtain ⟨us, hus, hd⟩ := reads_assignment (hc.after ha) e he
    exact ⟨us, hus, .given hk hd⟩

theorem reads_declaration {r : Reader} (hc : r.Clean) : (declaration r).Reads DerivesStmt := by
  refine (reads_typeName hc).andThen fun type s _ ts hts htype => ?_
  obtain ⟨k, rfl, hk, rfl⟩ := htype
  have hcs := hc.after hts
  refine (reads_expect hcs _ _).andThen fun name t _ us hus hname => ?_
  obtain ⟨rfl, hname⟩ := hname
  have hct := hcs.after hus
  refine (reads_initializer hct).andThen fun init u _ vs hvs hinit => ?_
  refine Reads.map fun semicolon hs => ?_
  obtain ⟨_, hws, rfl, hsemicolon⟩ := reads_expect (hct.after hvs) _ _ semicolon hs
  rw [pos_eq hts.rest]
  exact ⟨[semicolon], hws, .declare hk hname hinit hsemicolon⟩

theorem reads_returnStatement {r : Reader} (hc : r.Clean) {k : Token} {rest : List Token}
    (hr : r.rest = k :: rest) (hk : k.kind = .returnKeyword) (hne : r.rest ≠ []) :
    (returnStatement r hne).Reads DerivesStmt := by
  have ha := hc.after_advance hr
  refine Reads.since ha ?_ _
  refine (reads_expression (hc.after ha)).andThen fun e s _ ts hts he => ?_
  refine Reads.map fun semicolon hs => ?_
  obtain ⟨_, hus, rfl, hsemicolon⟩ := reads_expect ((hc.after ha).after hts) _ _ semicolon hs
  rw [pos_eq hr]
  exact ⟨[semicolon], hus, .returns hk he hsemicolon⟩

theorem reads_expressionStatement {r : Reader} (hc : r.Clean) :
    (expressionStatement r).Reads DerivesStmt := by
  refine (reads_expression hc).andThen fun e s _ ts hts he => ?_
  refine Reads.map fun semicolon hs => ?_
  obtain ⟨_, hus, rfl, hsemicolon⟩ := reads_expect (hc.after hts) _ _ semicolon hs
  obtain ⟨t, vs, rfl, -⟩ := he.exists_head
  rw [pos_eq hts.rest]
  exact ⟨[semicolon], hus, .expr he hsemicolon⟩

mutual

theorem sound_statement {r : Reader} (hc : r.Clean) : (statement r).Sound DerivesStmt := by
  rw [statement]
  split
  · exact (reads_expressionStatement hc).sound
  · next t ts hr =>
    split
    · next hk => exact (reads_returnStatement hc hr hk _).sound
    · exact (reads_declaration hc).sound
    · refine Sound.map fun hok b hb => ?_
      obtain ⟨us, hus, hd⟩ := sound_block hc hok b hb
      exact ⟨us, hus, .block hd⟩
    · exact (reads_expressionStatement hc).sound
termination_by (r.remaining, 1)

theorem sound_block {r : Reader} (hc : r.Clean) : (block r).Sound DerivesBlock := by
  rw [block]
  refine (reads_expect hc _ _).andThen_sound fun o s less ts hts ho => ?_
  obtain ⟨rfl, ho⟩ := ho
  have hcs := hc.after hts
  refine (sound_statements hcs).andThen (fun _ t _ => moves_expect t _ _)
    fun body t _ us hus hbody => Reads.sound (Reads.map fun c hclose => ?_)
  obtain ⟨_, hvs, rfl, hkc⟩ := reads_expect (hcs.after hus) _ _ c hclose
  rw [pos_eq hts.rest]
  exact ⟨[c], hvs, .intro ho hbody hkc⟩
termination_by (r.remaining, 0)

theorem sound_statements {r : Reader} (hc : r.Clean) : (statements r).Sound DerivesStmts := by
  rw [statements]
  split
  · exact (reads_done .nil).sound
  · next h =>
    have hread := sound_statement hc
    have hregular := regular_statement hc.settled
    have hsettled := hregular.moves.settled hc.settled
    split
    · next s t _ lt heq =>
      rw [heq] at hread hsettled
      have less := lt rfl
      intro hok
      have hbefore : ¬ t.Faulty := fun ht => hok ((regular_statements hsettled).moves.faulty ht)
      obtain ⟨ts, hts, hd⟩ := hread hbefore s rfl
      refine Reads.since hts (Reads.map fun body hb => ?_) _
      obtain ⟨us, hus, hds⟩ := sound_statements (hc.after hts) hok body hb
      exact ⟨us, hus, .cons hd hds⟩
    · next t _ _ heq =>
      -- a statement is given up only after a mistake
      rw [heq] at hregular hsettled
      have hrecover := moves_recover hsettled (rest_ne_nil_of_atEnd (not_or.1 h).2)
      have hmoves := hrecover.trans (regular_statements (hrecover.settled hsettled)).moves
      exact fun hok => absurd (hmoves.faulty (hregular.faulty rfl)) hok
termination_by (r.remaining, 2)

end

theorem sound_function {r : Reader} (hc : r.Clean) : (function r).Sound DerivesFunction := by
  refine (reads_typeName hc).andThen_sound fun type s _ ts hts htype => ?_
  obtain ⟨k, rfl, hk, rfl⟩ := htype
  have hcs := hc.after hts
  refine (reads_expect hcs _ _).andThen_sound fun name t _ us hus hname => ?_
  obtain ⟨rfl, hname⟩ := hname
  have hct := hcs.after hus
  refine (reads_expect hct _ _).andThen_sound fun o u _ vs hvs ho => ?_
  obtain ⟨rfl, ho⟩ := ho
  have hcu := hct.after hvs
  refine (reads_expect hcu _ _).andThen_sound fun c v _ ws hws hclose => ?_
  obtain ⟨rfl, hclose⟩ := hclose
  refine Sound.map fun hok b hb => ?_
  obtain ⟨xs, hxs, hd⟩ := sound_block (hcu.after hws) hok b hb
  rw [pos_eq hts.rest]
  exact ⟨xs, hxs, .intro hk hname ho hclose hd⟩

theorem Reader.Clean.atEnd_iff {r : Reader} (hc : r.Clean) : r.atEnd = true ↔ r.rest = [] := by
  cases hr : r.rest with
  | nil => simp [atEnd, kind, lookahead, hr, Token.endOfFile]
  | cons t rest =>
    have ht : r.kind ≠ .endOfFile := by
      rw [kind_eq hr]
      exact (hc t (by simp [hr])).2
    simp [atEnd, ht]

theorem sound_functions {r : Reader} (hc : r.Clean) (hok : ¬ (functions r).2.Faulty) :
    DerivesUnit r.rest (functions r).1 := by
  rw [functions] at hok ⊢
  split
  · next h =>
    rw [hc.atEnd_iff.1 h]
    exact .nil
  · next h =>
    rw [dif_neg h] at hok
    have hread := sound_function hc
    have hregular := regular_function hc.settled
    have hsettled := hregular.moves.settled hc.settled
    revert hok
    split
    · next f t _ lt heq =>
      intro hok
      rw [heq] at hread hsettled
      have less := lt rfl
      have hbefore : ¬ t.Faulty := fun ht => hok ((moves_functions hsettled).faulty ht)
      obtain ⟨ts, hts, hd⟩ := hread hbefore f rfl
      have hunit : DerivesUnit (ts ++ t.rest) (f :: (functions t).1) :=
        .cons hd (sound_functions (hc.after hts) hok)
      rwa [← hts.rest] at hunit
    · next t _ _ heq =>
      intro hok
      rw [heq] at hregular hsettled
      have hrecover := moves_recoverDeclaration hsettled (rest_ne_nil_of_atEnd h)
      have hmoves := hrecover.trans (moves_functions (hrecover.settled hsettled))
      exact absurd (hmoves.faulty (hregular.faulty rfl)) hok
termination_by r.remaining

end SmallC.Grammar
