import Mathlib
import SmallC.Proofs.Grammar.Acceptance
import SmallC.Proofs.Grammar.Passing

/-!
# The recoveries of a parse

Reading a stream recovers from every mistake, so what there is to say of recoveries is said of a list: each one
with the reader at the start of the broken statement or function and the reader where it was given up. The lists
follow the reading functions, and they miss none: a parse starts as many recoveries as its list is long.
Whatever is recovered from inside a block, the braces around it stay open, since only the end of a block passes
a closing brace.
-/
namespace SmallC.Grammar

open Reader Outcome

/-- A recovery from what began at `start` and was given up at `broken`. -/
inductive Repair where
  | statement (start broken : Reader)
  | function (start broken : Reader)

namespace Repair

def start : Repair → Reader
  | statement start _ => start
  | function start _ => start

/-- Something stands at the start that cannot be read and was given up there. -/
def Genuine : Repair → Prop
  | statement start broken =>
    ¬ (start.kind = .punct .closeBrace ∨ start.atEnd = true) ∧
      (Grammar.statement start).value = none ∧ (Grammar.statement start).next = broken
  | function start broken =>
    ¬ start.atEnd = true ∧
      (Grammar.function start).value = none ∧ (Grammar.function start).next = broken

end Repair

mutual

/-- The recoveries made while a statement is read; only those inside a block. -/
def statementRepairs (r : Reader) : List Repair :=
  if r.kind = .punct .openBrace then blockRepairs r else []
termination_by (r.remaining, 1)

def blockRepairs (r : Reader) : List Repair :=
  match r.expect (.punct .openBrace) .blockOpening with
  | ⟨some _, s, _, lt⟩ =>
    have := lt rfl
    statementsRepairs s
  | ⟨none, _, _, _⟩ => []
termination_by (r.remaining, 0)

def statementsRepairs (r : Reader) : List Repair :=
  if h : r.kind = .punct .closeBrace ∨ r.atEnd then []
  else
    have more := rest_ne_nil_of_atEnd (not_or.1 h).2
    statementRepairs r ++
      match statement r with
      | ⟨some _, t, _, lt⟩ =>
        have := lt rfl
        statementsRepairs t
      | ⟨none, t, le, _⟩ =>
        have := recover_lt le more
        .statement r t :: statementsRepairs (t.recover r)
termination_by (r.remaining, 2)

end

/-- The name of a function and its parentheses. -/
def parameters (r : Reader) : Outcome 1 r Token :=
  (r.expect .identifier .functionName).andThen fun _ s _ =>
    (s.expect (.punct .openParen) .parameterOpening).andThen fun _ t _ =>
      t.expect (.punct .closeParen) .parameterClosing

/-- The part of a function in front of its body. -/
def header (r : Reader) : Outcome 1 r Token :=
  (typeName r).andThen fun _ s _ => parameters s

def functionRepairs (r : Reader) : List Repair :=
  if (header r).value.isSome then blockRepairs (header r).next else []

def functionsRepairs (r : Reader) : List Repair :=
  if h : r.atEnd then []
  else
    have more := rest_ne_nil_of_atEnd h
    functionRepairs r ++
      match function r with
      | ⟨some _, t, _, lt⟩ =>
        have := lt rfl
        functionsRepairs t
      | ⟨none, t, le, _⟩ =>
        have := recoverDeclaration_lt le more
        .function r t :: functionsRepairs (t.recoverDeclaration r)
termination_by r.remaining

/-- The recoveries made while a whole stream is read, in order. -/
def repairs (S : TokenStream) : List Repair :=
  functionsRepairs (start S)

/-- The braces that are open behind a token; a brace that closes none counts for nothing. -/
def nest (depth : Nat) (k : Kind) : Nat :=
  if k = .punct .openBrace then depth + 1
  else if k = .punct .closeBrace then depth - 1
  else depth

/-- The braces that are open behind the tokens, with `depth` open in front of them. -/
def depthAfter (depth : Nat) (ts : List Token) : Nat :=
  ts.foldl (fun d t => nest d t.kind) depth

@[simp] theorem depthAfter_nil (depth : Nat) : depthAfter depth [] = depth :=
  rfl

@[simp] theorem depthAfter_cons (depth : Nat) (t : Token) (ts : List Token) :
    depthAfter depth (t :: ts) = depthAfter (nest depth t.kind) ts :=
  rfl

@[simp] theorem depthAfter_append (depth : Nat) (ts us : List Token) :
    depthAfter depth (ts ++ us) = depthAfter (depthAfter depth ts) us :=
  List.foldl_append

theorem nest_plain {k : Kind} (h : Plain k) (depth : Nat) : nest depth k = depth := by
  simp [nest, h.1, h.2]

theorem depthAfter_plain {ts : List Token} (h : ∀ t ∈ ts, Plain t.kind) (depth : Nat) :
    depthAfter depth ts = depth := by
  induction ts with
  | nil => rfl
  | cons t ts ih =>
    rw [depthAfter_cons, nest_plain (h t List.mem_cons_self)]
    exact ih fun u hu => h u (List.mem_cons_of_mem t hu)

/-- No brace is closed among the tokens that is not opened among them. -/
def Kept (ts : List Token) : Prop :=
  ∀ us, us <+: ts → ∀ depth, depth ≤ depthAfter depth us

theorem kept_of_no_close {ts : List Token} (h : ∀ t ∈ ts, t.kind ≠ .punct .closeBrace) : Kept ts := by
  intro us hus
  have hno : ∀ t ∈ us, t.kind ≠ .punct .closeBrace := fun t ht => h t (hus.subset ht)
  clear hus
  induction us with
  | nil => exact fun depth => Nat.le_refl depth
  | cons t us ih =>
    intro depth
    have hstep : depth ≤ nest depth t.kind := by
      unfold nest
      rw [if_neg (hno t List.mem_cons_self)]
      split <;> omega
    rw [depthAfter_cons]
    exact hstep.trans (ih (fun u hu => hno u (List.mem_cons_of_mem t hu)) _)

theorem Kept.append {ts us : List Token} (h : Kept ts) (h' : Kept us) : Kept (ts ++ us) := by
  rintro vs ⟨rest, hrest⟩ depth
  rcases List.append_eq_append_iff.1 hrest with ⟨ws, rfl, -⟩ | ⟨ws, rfl, hus⟩
  · exact h vs (List.prefix_append vs ws) depth
  · rw [depthAfter_append]
    exact (h ts List.prefix_rfl depth).trans (h' ws ⟨rest, hus.symm⟩ _)

/-- Inside a block its brace is open. -/
theorem Kept.open {o : Token} {ts us : List Token} (h : Kept ts) (ho : o.kind = .punct .openBrace)
    (hus : us <+: ts) (depth : Nat) : depth + 1 ≤ depthAfter depth (o :: us) := by
  have hopen : nest depth o.kind = depth + 1 := by simp [nest, ho]
  rw [depthAfter_cons, hopen]
  exact h us hus (depth + 1)

theorem kept_unclosed {o : Token} {ts : List Token} (h : Kept ts) (ho : o.kind = .punct .openBrace) :
    Kept (o :: ts) := by
  intro us hus depth
  cases us with
  | nil => exact Nat.le_refl depth
  | cons u us =>
    obtain ⟨rfl, hinside⟩ := List.cons_prefix_cons.1 hus
    exact Nat.le_of_succ_le (h.open ho hinside depth)

theorem kept_closed {o c : Token} {ts : List Token} (h : Kept ts) (ho : o.kind = .punct .openBrace) :
    Kept (o :: ts ++ [c]) := by
  intro us hus depth
  rcases List.prefix_concat_iff.1 hus with rfl | hus
  · have hinside := h.open ho List.prefix_rfl depth
    have hclose : ∀ d, d - 1 ≤ nest d c.kind := by
      intro d
      unfold nest
      split
      · omega
      · split <;> omega
    rw [depthAfter_append, depthAfter_cons _ c, depthAfter_nil]
    have := hclose (depthAfter depth (o :: ts))
    omega
  · exact kept_unclosed h ho us hus depth

namespace Reader

/-- The recoveries are made on the way from one reader to the other, over the tokens. -/
structure Mends (r : Reader) (ps : List Repair) (ts : List Token) (s : Reader) : Prop where
  passes : Passes r ts ps.length s
  genuine : ∀ p ∈ ps, p.Genuine ∧ ∃ us n, Passes r us n p.start

variable {r s t : Reader} {ps qs : List Repair} {ts us : List Token}

theorem Passes.mends (h : Passes r ts 0 s) : Mends r [] ts s :=
  ⟨h, fun _ hp => nomatch hp⟩

theorem Mends.trans (h : Mends r ps ts s) (h' : Mends s qs us t) : Mends r (ps ++ qs) (ts ++ us) t := by
  constructor
  · rw [List.length_append]
    exact h.passes.trans h'.passes
  · intro p hp
    rcases List.mem_append.1 hp with hp | hp
    · exact h.genuine p hp
    · obtain ⟨hgenuine, vs, n, hvs⟩ := h'.genuine p hp
      exact ⟨hgenuine, ts ++ vs, _, h.passes.trans hvs⟩

/-- Giving up what began at `start`, on the way to where reading goes on. -/
theorem Mends.repair {p : Repair} (h : Mends p.start ps ts s) (hp : p.Genuine) (h' : Passes s us 1 t) :
    Mends p.start (ps ++ [p]) (ts ++ us) t := by
  constructor
  · rw [List.length_append]
    exact h.passes.trans h'
  · intro q hq
    rcases List.mem_append.1 hq with hq | hq
    · exact h.genuine q hq
    · rw [List.mem_singleton.1 hq]
      exact ⟨hp, [], 0, .refl _⟩

theorem passes_synchronize {r : Reader} (hc : r.Clean) :
    ∃ ts, Passes r ts 0 r.synchronize ∧ ∀ t ∈ ts, t.kind ≠ .punct .closeBrace := by
  obtain ⟨_, hsync, hno⟩ := along_synchronize (twin_self hc.settled)
  exact hsync.passes hc hno

/-- What is skipped of a broken statement has no closing brace in it. -/
theorem passes_recover {r start : Reader} (hc : r.Clean) (hstart : Passes start ts n r)
    (hclose : start.kind ≠ .punct .closeBrace) (more : start.rest ≠ []) :
    ∃ us, Passes r us 1 (r.recover start) ∧ ∀ u ∈ us, u.kind ≠ .punct .closeBrace := by
  have hbegin := passes_beginRecovery r
  obtain ⟨us, hus, hno⟩ := passes_synchronize (hc.passes hbegin)
  have hsync : Passes r us 1 r.beginRecovery.synchronize := hbegin.trans hus
  unfold recover ensureProgress
  split
  · next hsame =>
    -- nothing was consumed at all, so the token that is skipped is the first one of the statement
    have hlength := (hstart.trans hsync).remaining
    have hnil : ts ++ us = [] := List.length_eq_zero_iff.1 (by omega)
    obtain ⟨rfl, rfl⟩ := List.append_eq_nil_iff.1 hnil
    obtain ⟨u, vs, hr⟩ := List.exists_cons_of_ne_nil more
    have hrest : r.beginRecovery.synchronize.rest = u :: vs := by
      rw [← hr, (hstart.trans hsync).rest]
      rfl
    refine ⟨[u], hsync.trans ((hc.passes hsync).passes_advance hrest), fun v hv => ?_⟩
    rw [List.mem_singleton.1 hv, ← kind_eq hr]
    exact hclose
  · exact ⟨us, hsync, hno⟩

end Reader

section Results

variable {α β : Type} {m n : Nat} {r s : Reader}

theorem Reader.expect_of_kind (more : r.rest ≠ []) {kind : Kind} (h : r.kind = kind) (wanted : Expectation) :
    (r.expect kind wanted).result = (some r.lookahead, r.advance) := by
  obtain ⟨u, us, hr⟩ := List.exists_cons_of_ne_nil more
  rw [expect_of_cons hr, if_pos (by rwa [← kind_eq hr])]
  simp [result, consume, lookahead, hr]

theorem Reader.expect_of_kind_ne {kind : Kind} (h : r.kind ≠ kind) (wanted : Expectation) :
    (r.expect kind wanted).result = (none, r.note wanted) := by
  cases hr : r.rest with
  | nil =>
    rw [expect_of_nil hr]
    rfl
  | cons u us =>
    rw [expect_of_cons hr, if_neg (by rwa [← kind_eq hr])]
    rfl

theorem Outcome.result_map_none {o : Outcome n r α} (h : o.result = (none, s)) (f : α → β) :
    (o.map f).result = (none, s) := by
  obtain ⟨hvalue, hnext⟩ := Prod.mk.inj h
  simp [result, map, hvalue, hnext]

theorem Outcome.result_andThen_none {o : Outcome m r α} (h : o.result = (none, s))
    {f : α → (t : Reader) → t.remaining + m ≤ r.remaining → Outcome n t β} :
    (o.andThen f).result = (none, s) := by
  obtain ⟨value, next, le, lt⟩ := o
  obtain ⟨rfl, rfl⟩ := Prod.mk.inj h
  rfl

end Results

section Blocks

variable {r : Reader} {u : Token} {us : List Token}

/-- Statements are read up to the end of their block or of the stream. -/
theorem statements_end (r : Reader) :
    (statements r).value.isSome = true ∧
      ((statements r).next.kind = .punct .closeBrace ∨ (statements r).next.atEnd = true) := by
  by_cases hend : r.kind = .punct .closeBrace ∨ r.atEnd = true
  · rw [statements_of_end hend]
    exact ⟨rfl, hend⟩
  · rcases ho : statement r with ⟨value, next, le, lt⟩
    cases value with
    | some s =>
      have less := lt rfl
      rw [statements_of_value hend ho]
      have hrest := statements_end next
      exact ⟨by simpa [since, map] using hrest.1, hrest.2⟩
    | none =>
      have less := recover_lt le (rest_ne_nil_of_atEnd (not_or.1 hend).2)
      rw [statements_of_mistake hend ho]
      exact statements_end (next.recover r)
termination_by r.remaining

theorem statement_of_open (h : r.kind = .punct .openBrace) :
    statement r = (block r).map fun b => .block b.body b.pos := by
  obtain ⟨u, us, hr, hu⟩ := exists_of_kind h nofun
  rw [statement_of_cons hr]
  simp only [hu]

theorem block_of_not_open (h : r.kind ≠ .punct .openBrace) :
    (block r).result = (none, r.note .blockOpening) := by
  rw [block]
  exact result_andThen_none (expect_of_kind_ne h _)

/-- A block that was opened is read if it is closed where its statements end. -/
theorem block_of_open (more : r.rest ≠ []) (h : r.kind = .punct .openBrace) :
    let t := (statements r.advance).next
    if t.kind = .punct .closeBrace then ∃ b, (block r).result = (some b, t.advance)
    else (block r).result = (none, t.note .blockClosing) := by
  intro t
  obtain ⟨hsome, -⟩ := statements_end r.advance
  obtain ⟨body, hbody⟩ := Option.isSome_iff_exists.1 hsome
  have hread : (statements r.advance).result = (some body, t) := Prod.ext hbody rfl
  rw [block]
  split
  · next hclose =>
    obtain ⟨c, cs, ht, -⟩ := exists_of_kind hclose nofun
    refine ⟨⟨body, r.pos⟩, result_andThen (expect_of_kind more h _) fun _ => ?_⟩
    refine result_andThen hread fun _ => ?_
    exact result_map (expect_of_kind (rest_ne_nil_of_cons ht) hclose _) _
  · next hclose =>
    refine result_andThen (expect_of_kind more h _) fun _ => ?_
    refine result_andThen hread fun _ => ?_
    exact result_map_none (expect_of_kind_ne hclose _) _

theorem blockRepairs_of_open (more : r.rest ≠ []) (h : r.kind = .punct .openBrace) :
    blockRepairs r = statementsRepairs r.advance := by
  have hread := expect_of_kind more h .blockOpening
  rw [blockRepairs]
  split
  · next hx =>
    rw [hx] at hread
    rw [← (Prod.mk.inj hread).2]
  · next hx =>
    rw [hx] at hread
    cases (Prod.mk.inj hread).1

theorem blockRepairs_of_not_open (h : r.kind ≠ .punct .openBrace) : blockRepairs r = [] := by
  have hread := expect_of_kind_ne h .blockOpening
  rw [blockRepairs]
  split
  · next hx =>
    rw [hx] at hread
    cases (Prod.mk.inj hread).1
  · rfl

theorem statementsRepairs_of_end (h : r.kind = .punct .closeBrace ∨ r.atEnd = true) :
    statementsRepairs r = [] := by
  rw [statementsRepairs, dif_pos h]

theorem statementsRepairs_of_more (h : ¬ (r.kind = .punct .closeBrace ∨ r.atEnd = true)) :
    statementsRepairs r =
      if (statement r).value.isSome then statementRepairs r ++ statementsRepairs (statement r).next
      else statementRepairs r ++ [.statement r (statement r).next] ++
        statementsRepairs ((statement r).next.recover r) := by
  rw [statementsRepairs, dif_neg h]
  dsimp only
  split
  · next hx => simp [hx]
  · next hx => simp [hx]

end Blocks

mutual

/-- Reading a statement makes the recoveries of its list and leaves the braces around it open. -/
theorem mends_statement {r : Reader} (hc : r.Clean) :
    ∃ ts, Mends r (statementRepairs r) ts (statement r).next ∧ Kept ts := by
  rw [statementRepairs]
  split
  · next hk =>
    rw [statement_of_open hk]
    exact mends_block hc
  · next hk =>
    obtain ⟨ts, hts, hplain⟩ := (simple_statement hc hk).plain
    exact ⟨ts, hts.mends, kept_of_no_close fun t ht => (hplain t ht).2⟩
termination_by (r.remaining, 1)

theorem mends_block {r : Reader} (hc : r.Clean) :
    ∃ ts, Mends r (blockRepairs r) ts (block r).next ∧ Kept ts := by
  by_cases hk : r.kind = .punct .openBrace
  · obtain ⟨u, us, hr, hu⟩ := exists_of_kind hk nofun
    have more := rest_ne_nil_of_cons hr
    have less := advance_lt more
    have hopen := hc.passes_advance hr
    obtain ⟨ts, hts, hkept⟩ := mends_statements (hc.passes hopen)
    have hinside := hopen.mends.trans hts
    rw [blockRepairs_of_open more hk]
    have hread := block_of_open more hk
    dsimp only at hread
    split at hread
    · next hclose =>
      obtain ⟨b, hb⟩ := hread
      obtain ⟨c, cs, ht, -⟩ := exists_of_kind hclose nofun
      have hend := ((hc.passes hinside.passes).passes_advance ht).mends
      rw [(Prod.mk.inj hb).2]
      refine ⟨[u] ++ ts ++ [c], ?_, kept_closed hkept hu⟩
      have := hinside.trans hend
      rwa [List.append_nil] at this
    · rw [(Prod.mk.inj hread).2]
      refine ⟨[u] ++ ts ++ [], ?_, ?_⟩
      · have := hinside.trans (passes_note _ .blockClosing).mends
        rwa [List.append_nil] at this
      · rw [List.append_nil]
        exact kept_unclosed hkept hu
  · rw [blockRepairs_of_not_open hk, (Prod.mk.inj (block_of_not_open hk)).2]
    exact ⟨[], (passes_note r _).mends, kept_of_no_close fun _ ht => nomatch ht⟩
termination_by (r.remaining, 0)

theorem mends_statements {r : Reader} (hc : r.Clean) :
    ∃ ts, Mends r (statementsRepairs r) ts (statements r).next ∧ Kept ts := by
  by_cases hend : r.kind = .punct .closeBrace ∨ r.atEnd = true
  · rw [statementsRepairs_of_end hend, statements_of_end hend]
    exact ⟨[], (Passes.refl r).mends, kept_of_no_close fun _ ht => nomatch ht⟩
  · have more := rest_ne_nil_of_atEnd (not_or.1 hend).2
    obtain ⟨ts, hts, hkept⟩ := mends_statement hc
    rw [statementsRepairs_of_more hend]
    rcases ho : statement r with ⟨value, next, le, lt⟩
    have hnext : (statement r).next = next := by rw [ho]
    rw [hnext] at hts
    cases value with
    | some s =>
      have less := lt rfl
      obtain ⟨us, hus, hkept'⟩ := mends_statements (hc.passes hts.passes)
      rw [statements_of_value hend ho]
      exact ⟨ts ++ us, hts.trans hus, hkept.append hkept'⟩
    | none =>
      have less := recover_lt le more
      have hgenuine : Repair.Genuine (.statement r next) := ⟨hend, by rw [ho], hnext⟩
      obtain ⟨us, hus, hno⟩ :=
        passes_recover (hc.passes hts.passes) hts.passes (not_or.1 hend).1 more
      have hmended := Mends.repair (p := .statement r next) hts hgenuine hus
      obtain ⟨vs, hvs, hkept'⟩ := mends_statements (hc.passes hmended.passes)
      rw [statements_of_mistake hend ho]
      exact ⟨ts ++ us ++ vs, hmended.trans hvs, (hkept.append (kept_of_no_close hno)).append hkept'⟩
termination_by (r.remaining, 2)

end

/-- A block is given up at its start or, once it was opened, at the end of the stream. -/
theorem block_broken {r : Reader} (hc : r.Clean) (h : (block r).value = none) :
    Passes r [] 0 (block r).next ∨
      ∃ o us n, o.kind = .punct .openBrace ∧ Kept us ∧ Passes r (o :: us) n (block r).next ∧
        (block r).next.rest = [] := by
  by_cases hk : r.kind = .punct .openBrace
  · right
    obtain ⟨o, vs, hr, ho⟩ := exists_of_kind hk nofun
    have hopen := hc.passes_advance hr
    obtain ⟨us, hus, hkept⟩ := mends_statements (hc.passes hopen)
    have hinside := (hopen.trans hus.passes).trans (passes_note _ .blockClosing)
    have hread := block_of_open (rest_ne_nil_of_cons hr) hk
    dsimp only at hread
    split at hread
    · obtain ⟨b, hb⟩ := hread
      rw [(Prod.mk.inj hb).1] at h
      cases h
    · next hclose =>
      have hend := (statements_end r.advance).2.resolve_left hclose
      rw [(Prod.mk.inj hread).2]
      rw [List.append_nil] at hinside
      exact ⟨o, us, _, ho, hkept, hinside, (hc.passes hinside).atEnd_iff.1 hend⟩
  · rw [(Prod.mk.inj (block_of_not_open hk)).2]
    exact .inl (passes_note r _)

namespace Outcome

variable {α β γ : Type} {k m n : Nat} {r : Reader}

/-- The second outcome is the first one, with a block behind it where that has a value. -/
structure WithBlock (o : Outcome m r α) (o' : Outcome n r β) : Prop where
  value : o.value.isSome = true →
    o'.value.isSome = (block o.next).value.isSome ∧ o'.next = (block o.next).next
  broken : o.value = none → o'.result = (none, o.next)

theorem withBlock_andThen (o : Outcome m r α) (g : α → Block → β) :
    o.WithBlock (o.andThen fun a t _ => (block t).map (g a)) := by
  obtain ⟨value, next, le, lt⟩ := o
  cases value with
  | none => exact ⟨fun h => (nomatch h), fun _ => rfl⟩
  | some a => exact ⟨fun _ => ⟨Option.isSome_map, rfl⟩, fun h => nomatch h⟩

theorem WithBlock.andThen (o : Outcome k r α)
    {f : α → (t : Reader) → t.remaining + k ≤ r.remaining → Outcome m t β}
    {f' : α → (t : Reader) → t.remaining + k ≤ r.remaining → Outcome n t γ}
    (hf : ∀ a t hlt, (f a t hlt).WithBlock (f' a t hlt)) : (o.andThen f).WithBlock (o.andThen f') := by
  obtain ⟨value, next, le, lt⟩ := o
  cases value with
  | none => exact ⟨fun h => (nomatch h), fun _ => rfl⟩
  | some a => exact ⟨(hf a next (lt rfl)).value, (hf a next (lt rfl)).broken⟩

end Outcome

/-- A function is its header and its body. -/
theorem withBlock_function (r : Reader) : (header r).WithBlock (function r) := by
  refine WithBlock.andThen _ fun type s _ => ?_
  refine WithBlock.andThen _ fun name t _ => ?_
  refine WithBlock.andThen _ fun _ u _ => ?_
  exact withBlock_andThen _ fun _ body => Function.mk type name.lexeme [] body r.pos

theorem within_parameters {r : Reader} (hc : r.Clean) :
    (parameters r).Within fun k => Plain k ∧ k ≠ .intKeyword := by
  have htwin := twin_self hc.settled
  have hread : (parameters r).Alike (.only fun k => Plain k ∧ k ≠ .intKeyword) (Token.relocate id)
      (parameters r) := by
    refine (alike_expect_only htwin (by decide) _).andThen htwin (fun _ hm => hm) fun _ s s' _ _ hs => ?_
    refine (alike_expect_only hs (by decide) _).andThen hs (fun _ hm => hm) fun _ t t' _ _ ht => ?_
    exact alike_expect_only ht (by decide) _
  exact hread.within hc

/-- A header has no brace in it, and no `int` but the first token. -/
theorem passes_header {r : Reader} (hc : r.Clean) :
    ∃ ts, Passes r ts 0 (header r).next ∧ (∀ t ∈ ts, Plain t.kind) ∧
      ∀ t ∈ ts.tail, t.kind ≠ .intKeyword := by
  by_cases hk : r.kind = .intKeyword
  · obtain ⟨u, us, hr, hu⟩ := exists_of_kind hk nofun
    have hfirst := hc.passes_advance hr
    have hnext : (header r).next = (parameters r.advance).next := by
      unfold header typeName
      rw [expect_of_cons hr, if_pos hu]
      rfl
    obtain ⟨ts, hts, hin⟩ := within_parameters (hc.passes hfirst)
    rw [hnext]
    refine ⟨[u] ++ ts, hfirst.trans hts, ?_, fun t ht => (hin t ht).2⟩
    exact List.forall_mem_cons.2 ⟨by simp [Plain, hu], fun t ht => (hin t ht).1⟩
  · have hfail : (header r).result = (none, r.note .typeName) :=
      result_andThen_none (result_map_none (expect_of_kind_ne hk _) _)
    rw [(Prod.mk.inj hfail).2]
    exact ⟨[], passes_note r _, by simp, by simp⟩

theorem mends_function {r : Reader} (hc : r.Clean) :
    ∃ ts, Mends r (functionRepairs r) ts (function r).next := by
  obtain ⟨ts, hts, -⟩ := passes_header hc
  unfold functionRepairs
  split
  · next hsome =>
    obtain ⟨us, hus, -⟩ := mends_block (hc.passes hts)
    rw [((withBlock_function r).value hsome).2]
    exact ⟨ts ++ us, hts.mends.trans hus⟩
  · next hnone =>
    have hbroken := (withBlock_function r).broken (Option.not_isSome_iff_eq_none.1 hnone)
    rw [(Prod.mk.inj hbroken).2]
    exact ⟨ts, hts.mends⟩

theorem functionsRepairs_of_more {r : Reader} (h : ¬ r.atEnd = true) :
    functionsRepairs r =
      if (function r).value.isSome then functionRepairs r ++ functionsRepairs (function r).next
      else functionRepairs r ++ [.function r (function r).next] ++
        functionsRepairs ((function r).next.recoverDeclaration r) := by
  rw [functionsRepairs, dif_neg h]
  dsimp only
  split
  · next hx => simp [hx]
  · next hx => simp [hx]

/-- What is skipped to get to an `int` outside braces, `depth` of which are open. -/
theorem passes_skipDeclaration (depth : Nat) {r : Reader} (hc : r.Clean) :
    let s := r.skipDeclaration depth
    ∃ ts, Passes r ts 0 s ∧ (s.rest = [] ∨ s.kind = .intKeyword ∧ depthAfter depth ts = 0) ∧
      ∀ us t vs, ts = us ++ t :: vs → t.kind = .intKeyword → depthAfter depth us ≠ 0 := by
  intro s
  by_cases hend : r.atEnd = true
  · have hs : s = r := by rw [show s = r.skipDeclaration depth from rfl, skipDeclaration, dif_pos hend]
    rw [hs]
    exact ⟨[], .refl r, .inl (hc.atEnd_iff.1 hend), by simp⟩
  by_cases hint : r.kind = .intKeyword ∧ depth = 0
  · have hs : s = r := by
      rw [show s = r.skipDeclaration depth from rfl, skipDeclaration, dif_neg hend, if_pos hint]
    rw [hs]
    exact ⟨[], .refl r, .inr hint, by simp⟩
  have more := rest_ne_nil_of_atEnd hend
  have less := advance_lt more
  obtain ⟨u, us, hr⟩ := List.exists_cons_of_ne_nil more
  have hs : s = r.advance.skipDeclaration (nest depth u.kind) := by
    rw [show s = r.skipDeclaration depth from rfl, skipDeclaration, dif_neg hend, if_neg hint, kind_eq hr]
    rfl
  have hfirst := hc.passes_advance hr
  obtain ⟨ts, hts, hstop, hbefore⟩ := passes_skipDeclaration (nest depth u.kind) (hc.passes hfirst)
  rw [hs]
  refine ⟨[u] ++ ts, hfirst.trans hts, hstop, fun vs t ws hsplit ht => ?_⟩
  cases vs with
  | nil =>
    obtain ⟨rfl, -⟩ := List.cons.inj hsplit
    exact fun hzero => hint ⟨(kind_eq hr).trans ht, hzero⟩
  | cons v vs =>
    obtain ⟨rfl, hlater⟩ := List.cons.inj hsplit
    exact hbefore vs t ws hlater ht
termination_by r.remaining

/-- What is skipped of a broken function, of which `ts` has been consumed: its first token, if that is none, and
then what stands in front of the next `int` outside braces. -/
theorem passes_recoverDeclaration {r start : Reader} {ts : List Token} {n : Nat} (hc : r.Clean)
    (hstart : Passes start ts n r) (more : start.rest ≠ []) :
    let s := r.recoverDeclaration start
    ∃ us vs, Passes r (us ++ vs) 1 s ∧ us = (if ts = [] then [start.lookahead] else []) ∧
      (s.rest = [] ∨ s.kind = .intKeyword ∧ depthAfter 0 vs = 0) ∧
      ∀ before t after, vs = before ++ t :: after → t.kind = .intKeyword → depthAfter 0 before ≠ 0 := by
  intro s
  have hbegin := passes_beginRecovery r
  have hlength := (hstart.trans hbegin).remaining
  by_cases hnone : ts = []
  · obtain ⟨u, us, hu⟩ := List.exists_cons_of_ne_nil more
    have hrest : r.beginRecovery.rest = u :: us := by
      rw [← hu, (hstart.trans hbegin).rest, hnone]
      rfl
    have hfirst := hbegin.trans ((hc.passes hbegin).passes_advance hrest)
    obtain ⟨vs, hvs, hstop, hbefore⟩ := passes_skipDeclaration 0 (hc.passes hfirst)
    have hs : s = r.beginRecovery.advance.skipDeclaration 0 := by
      have hsame : r.beginRecovery.remaining = start.remaining := by simp [hnone] at hlength; omega
      rw [show s = r.recoverDeclaration start from rfl, recoverDeclaration, ensureProgress, if_pos hsame]
    have hlook : start.lookahead = u := by simp [lookahead, hu]
    rw [hs, if_pos hnone, hlook]
    exact ⟨[u], vs, hfirst.trans hvs, rfl, hstop, hbefore⟩
  · obtain ⟨vs, hvs, hstop, hbefore⟩ := passes_skipDeclaration 0 (hc.passes hbegin)
    have hs : s = r.beginRecovery.skipDeclaration 0 := by
      have hfewer : r.beginRecovery.remaining ≠ start.remaining := by
        have := List.length_pos_iff.2 hnone
        simp at hlength
        omega
      rw [show s = r.recoverDeclaration start from rfl, recoverDeclaration, ensureProgress, if_neg hfewer]
    rw [hs, if_neg hnone]
    exact ⟨[], vs, hbegin.trans hvs, rfl, hstop, hbefore⟩

/-- Reading functions makes the recoveries of its list. -/
theorem mends_functions {r : Reader} (hc : r.Clean) :
    ∃ ts, Mends r (functionsRepairs r) ts (functions r).2 := by
  by_cases hend : r.atEnd = true
  · rw [functionsRepairs, dif_pos hend, functions_of_end hend]
    exact ⟨[], (Passes.refl r).mends⟩
  · have more := rest_ne_nil_of_atEnd hend
    obtain ⟨ts, hts⟩ := mends_function hc
    rw [functionsRepairs_of_more hend]
    rcases ho : function r with ⟨value, next, le, lt⟩
    have hnext : (function r).next = next := by rw [ho]
    rw [hnext] at hts
    cases value with
    | some f =>
      have less := lt rfl
      obtain ⟨us, hus⟩ := mends_functions (hc.passes hts.passes)
      rw [functions_of_value hend ho]
      exact ⟨ts ++ us, hts.trans hus⟩
    | none =>
      have less := recoverDeclaration_lt le more
      have hgenuine : Repair.Genuine (.function r next) := ⟨hend, by rw [ho], hnext⟩
      obtain ⟨us, vs, hskip, -⟩ := passes_recoverDeclaration (hc.passes hts.passes) hts.passes more
      have hmended := Mends.repair (p := .function r next) hts hgenuine hskip
      obtain ⟨ws, hws⟩ := mends_functions (hc.passes hmended.passes)
      rw [functions_of_mistake hend ho]
      exact ⟨_, hmended.trans hws⟩
termination_by r.remaining

section Streams

variable {S : TokenStream}

theorem clean_start (h : ∀ t ∈ S.tokens, t.kind ≠ .invalid ∧ t.kind ≠ .endOfFile) : (start S).Clean := by
  intro t ht
  rw [(after_start h).1] at ht
  exact h t ht

/-- The recoveries of a parse are those of its list. -/
theorem recoveries_parse (h : ∀ t ∈ S.tokens, t.kind ≠ .invalid ∧ t.kind ≠ .endOfFile) :
    (parse S).recoveries = (repairs S).length := by
  obtain ⟨ts, hts⟩ := mends_functions (clean_start h)
  have hcount := hts.passes.recoveries
  rw [(after_start h).2, List.count_nil, Nat.zero_add] at hcount
  rw [Parse.recoveries, parse_remarks, hcount]
  rfl

/-- A recovery is from something that stands in the stream and cannot be read. -/
theorem repairs_genuine (h : ∀ t ∈ S.tokens, t.kind ≠ .invalid ∧ t.kind ≠ .endOfFile) {p : Repair}
    (hp : p ∈ repairs S) :
    p.Genuine ∧ p.start.Clean ∧ ∃ past, S.tokens = past ++ p.start.rest ∧
      p.start.last = (past.getLast?.map Token.kind).getD .endOfFile := by
  obtain ⟨ts, hts⟩ := mends_functions (clean_start h)
  obtain ⟨hgenuine, past, n, hpast⟩ := hts.genuine p hp
  refine ⟨hgenuine, (clean_start h).passes hpast, past, ?_, hpast.last⟩
  rw [← hpast.rest, (after_start h).1]

end Streams

end SmallC.Grammar
