import Mathlib
import SmallC.Proofs.Grammar.Repairs

/-!
# Where recovery from a broken statement stops

A broken statement is skipped up to a boundary: just past a semicolon of its own, or before a token that starts a
statement or ends a block, or at the end of the stream. There is one exception. Skipping asks for the token
consumed last, and where a statement is broken at its very first token that is a token of the statement before it.
If that one ended with a semicolon, only the first token is skipped, and reading goes on behind it in the middle
of the broken statement.
-/
namespace SmallC.Grammar

open Reader Outcome

namespace Reader

variable {r start : Reader} {ts : List Token} {n : Nat}

theorem synchronize_stops (r : Reader) :
    r.synchronize.atEnd = true ∨ r.synchronize.last = .punct .semicolon ∨
      r.synchronize.atBoundary = true := by
  fun_induction synchronize r with
  | case1 r hend => exact .inl hend
  | case2 r hend hstop =>
    right
    simpa using hstop
  | case3 r hend hstop less ih => exact ih

/-- Skipping goes nowhere from the end, from a boundary, and from right behind a semicolon. -/
theorem synchronize_remaining_eq_iff (r : Reader) :
    r.synchronize.remaining = r.remaining ↔
      r.atEnd = true ∨ r.last = .punct .semicolon ∨ r.atBoundary = true := by
  by_cases hend : r.atEnd = true
  · rw [synchronize, dif_pos hend]
    simp [hend]
  by_cases hstop : (r.last == .punct .semicolon || r.atBoundary) = true
  · rw [synchronize, dif_neg hend, if_pos hstop]
    simp at hstop
    simp [hstop]
  · have less := advance_lt (rest_ne_nil_of_atEnd hend)
    have hskipped := synchronize_le r.advance
    have hgone : r.synchronize.remaining ≠ r.remaining := by
      rw [synchronize, dif_neg hend, if_neg hstop]
      omega
    simp at hstop
    simp [hgone, hend, hstop]

end Reader

theorem Outcome.since_remaining {α : Type} {m n : Nat} {r t : Reader} (o : Outcome n t α)
    (hlt : t.remaining + m ≤ r.remaining) : (since hlt o).next.remaining ≤ t.remaining :=
  o.le

theorem Outcome.andThen_remaining {α β : Type} {m n : Nat} {r : Reader} {o : Outcome m r α}
    (h : o.value.isSome = true)
    (f : α → (t : Reader) → t.remaining + m ≤ r.remaining → Outcome n t β) :
    (o.andThen f).next.remaining ≤ o.next.remaining := by
  obtain ⟨value, next, le, lt⟩ := o
  cases value with
  | none => cases h
  | some a => exact since_remaining (f a next (lt rfl)) (lt rfl)

/-- A statement that starts with a keyword is not given up before the keyword is consumed. -/
theorem statement_moves {r : Reader} (h : r.kind = .intKeyword ∨ r.kind = .returnKeyword) :
    (statement r).next.remaining < r.remaining := by
  rcases h with h | h
  · obtain ⟨u, us, hr, hu⟩ := exists_of_kind h nofun
    have more := rest_ne_nil_of_cons hr
    have less := advance_lt more
    have htype := result_map (expect_of_kind more h .typeName) fun t => TypeName.mk t.lexeme t.pos
    obtain ⟨hvalue, hnext⟩ := Prod.mk.inj htype
    have hle : (declaration r).next.remaining ≤ (typeName r).next.remaining :=
      andThen_remaining (Option.isSome_of_eq_some hvalue) _
    rw [show (typeName r).next = r.advance from hnext] at hle
    rw [statement_of_cons hr]
    simp only [hu]
    omega
  · obtain ⟨u, us, hr, hu⟩ := exists_of_kind h nofun
    have more := rest_ne_nil_of_cons hr
    have less := advance_lt more
    have hle : (returnStatement r more).next.remaining ≤ r.advance.remaining := since_remaining _ _
    rw [statement_of_cons hr]
    simp only [hu]
    omega

/-- A broken statement has come to the end of the stream, or it has passed no semicolon. -/
theorem statement_broken {r : Reader} (hc : r.Clean) (h : (statement r).value = none) :
    (statement r).next.atEnd = true ∨
      ∃ ts, Passes r ts 0 (statement r).next ∧ ∀ t ∈ ts, Inner t.kind := by
  by_cases hk : r.kind = .punct .openBrace
  · rw [statement_of_open hk] at h ⊢
    rcases block_broken hc (Option.map_eq_none_iff.1 h) with hstart | ⟨_, _, _, -, -, hus, hend⟩
    · exact .inr ⟨[], hstart, by simp⟩
    · exact .inl ((hc.passes hus).atEnd_iff.2 hend)
  · exact .inr ((simple_statement hc hk).broken h)

/-- The tokens end at a boundary: with a semicolon, or before what starts a statement or ends a block, or with the
stream. -/
def Bounded (own : List Token) (after : Reader) : Prop :=
  after.atBoundary = true ∨ after.atEnd = true ∨ ∃ t ∈ own.getLast?, t.kind = .punct .semicolon

/-- The statement is broken at its first token, which is no semicolon but stands behind one, and the second token
is no boundary. -/
def Slipped (past : List Token) (start broken : Reader) : Prop :=
  broken.rest = start.rest ∧ (∃ t ∈ past.getLast?, t.kind = .punct .semicolon) ∧
    start.kind ≠ .punct .semicolon ∧
    ∃ t ∈ start.rest[1]?, t.kind ≠ .intKeyword ∧ t.kind ≠ .returnKeyword ∧ t.kind ≠ .punct .closeBrace

section Statements

variable {start broken : Reader}

/-- A statement that was given up at its first token starts with no keyword. -/
theorem synchronize_stuck_iff (h : Repair.Genuine (.statement start broken))
    (hsame : Passes start [] 0 broken) :
    broken.beginRecovery.synchronize.remaining = start.remaining ↔ start.last = .punct .semicolon := by
  obtain ⟨hopen, -, rfl⟩ := h
  obtain ⟨hclose, hend⟩ := not_or.1 hopen
  obtain ⟨u, us, hu⟩ := List.exists_cons_of_ne_nil (rest_ne_nil_of_atEnd hend)
  let t := (statement start).next
  have hlength : start.remaining = t.remaining := by simpa using hsame.remaining
  have hkind : t.kind = start.kind := by rw [kind_eq hu, kind_eq (hsame.rest.symm.trans hu)]
  have hlast : t.last = start.last := hsame.last
  have hword : ¬ (start.kind = .intKeyword ∨ start.kind = .returnKeyword) := by
    intro hword
    have : t.remaining < start.remaining := statement_moves hword
    omega
  have hboundary : t.atBoundary = false := by
    simp only [not_or] at hword
    simp [atBoundary, hkind, hword, hclose]
  have hmore : ¬ t.atEnd = true := by rwa [atEnd, hkind]
  have hstuck := synchronize_remaining_eq_iff t.beginRecovery
  change _ = t.remaining ↔ t.atEnd = true ∨ t.last = _ ∨ t.atBoundary = true at hstuck
  rw [hlength, hstuck, hlast]
  simp [hmore, hboundary]

/-- Skipping a broken statement gets nowhere exactly if it was broken at its first token, right behind a
semicolon. -/
theorem stuck_iff (hc : start.Clean) (h : Repair.Genuine (.statement start broken)) :
    broken.beginRecovery.synchronize.remaining = start.remaining ↔
      broken.rest = start.rest ∧ start.last = .punct .semicolon := by
  have hgone : broken.remaining < start.remaining →
      (broken.beginRecovery.synchronize.remaining = start.remaining ↔
        broken.rest = start.rest ∧ start.last = .punct .semicolon) := by
    intro hless
    have hsync : _ ≤ broken.remaining := synchronize_le broken.beginRecovery
    have hrest : broken.rest ≠ start.rest := by
      intro heq
      have : broken.remaining = start.remaining := congrArg List.length heq
      omega
    exact ⟨fun hsame => by omega, fun hsame => absurd hsame.1 hrest⟩
  obtain ⟨hopen, hnone, hnext⟩ := h
  have hpos : 0 < start.remaining := List.length_pos_iff.2 (rest_ne_nil_of_atEnd (not_or.1 hopen).2)
  rcases statement_broken hc hnone with hend | ⟨ts, hts, -⟩
  · apply hgone
    obtain ⟨ts, hts, -⟩ := mends_statement hc
    have hnil := (hc.passes hts.passes).atEnd_iff.1 hend
    rw [hnext] at hnil
    rw [remaining, hnil]
    exact hpos
  · rw [hnext] at hts
    cases ts with
    | nil =>
      rw [synchronize_stuck_iff ⟨hopen, hnone, hnext⟩ hts]
      exact (and_iff_right hts.rest.symm).symm
    | cons u us =>
      apply hgone
      have := hts.remaining
      simp at this
      omega

/-- What lies between the start of a broken statement and where skipping it ends. -/
theorem passes_skipped (hc : start.Clean) (h : Repair.Genuine (.statement start broken)) :
    ∃ own n, Passes start own n broken.beginRecovery.synchronize := by
  obtain ⟨-, -, rfl⟩ := h
  obtain ⟨ts, hts, -⟩ := mends_statement hc
  have hbegin := hts.passes.trans (passes_beginRecovery _)
  obtain ⟨us, hus, -⟩ := passes_synchronize (hc.passes hbegin)
  exact ⟨_, _, hbegin.trans hus⟩

/-- Where something was skipped, or consumed before that, reading goes on at a boundary. -/
theorem bounded_of_moved (hc : start.Clean) (h : Repair.Genuine (.statement start broken))
    (hmoved : broken.beginRecovery.synchronize.remaining ≠ start.remaining) :
    ∃ own, own ≠ [] ∧ start.rest = own ++ (broken.recover start).rest ∧
      Bounded own (broken.recover start) := by
  obtain ⟨own, n, hown⟩ := passes_skipped hc h
  have hne : own ≠ [] := by
    rintro rfl
    exact hmoved (by simpa using hown.remaining.symm)
  rw [recover, ensureProgress, if_neg hmoved]
  refine ⟨own, hne, hown.rest, ?_⟩
  rcases synchronize_stops broken.beginRecovery with hend | hlast | hboundary
  · exact .inr (.inl hend)
  · obtain ⟨t, ht, hkind⟩ := hown.exists_last hne
    exact .inr (.inr ⟨t, ht, hkind.trans hlast⟩)
  · exact .inl hboundary

/-- Where nothing was, only the first token of the statement is skipped. -/
theorem recover_of_stuck (hc : start.Clean) (h : Repair.Genuine (.statement start broken))
    (hstuck : broken.beginRecovery.synchronize.remaining = start.remaining) :
    start.rest = start.lookahead :: (broken.recover start).rest := by
  obtain ⟨own, n, hown⟩ := passes_skipped hc h
  have hlength := hown.remaining
  obtain rfl : own = [] := List.length_eq_zero_iff.1 (by omega)
  obtain ⟨u, vs, hu⟩ := List.exists_cons_of_ne_nil (rest_ne_nil_of_atEnd (not_or.1 h.1).2)
  have hrest : broken.beginRecovery.synchronize.rest = u :: vs := by rw [← hu, hown.rest, List.nil_append]
  have hlook : start.lookahead = u := by simp [lookahead, hu]
  rw [recover, ensureProgress, if_pos hstuck, hlook, hu, ← hrest]
  exact ((hc.passes hown).passes_advance hrest).rest

/-- Behind the first token there is a boundary exactly if the statement has not slipped. -/
theorem bounded_first_iff {past : List Token} {after : Reader} (hc : start.Clean)
    (hrest : start.rest = start.lookahead :: after.rest) (hsame : broken.rest = start.rest)
    (hsemi : ∃ t ∈ past.getLast?, t.kind = .punct .semicolon) :
    Bounded [start.lookahead] after ↔ ¬ Slipped past start broken := by
  have hcut : Slipped past start broken ↔ start.kind ≠ .punct .semicolon ∧ ∃ t ∈ after.rest.head?,
      t.kind ≠ .intKeyword ∧ t.kind ≠ .returnKeyword ∧ t.kind ≠ .punct .closeBrace := by
    have hsecond : start.rest[1]? = after.rest.head? := by
      rw [hrest, List.head?_eq_getElem?]
      rfl
    rw [Slipped, hsecond]
    exact ⟨fun hslip => hslip.2.2, fun hfirst => ⟨hsame, hsemi, hfirst⟩⟩
  have hown : Bounded [start.lookahead] after ↔
      after.atBoundary = true ∨ after.atEnd = true ∨ start.kind = .punct .semicolon := by
    simp [Bounded, kind]
  have hc' : after.Clean := fun t ht => hc t (by rw [hrest]; exact List.mem_cons_of_mem _ ht)
  rw [hown, hcut]
  cases hr : after.rest with
  | nil => simp [hc'.atEnd_iff.2 hr]
  | cons t ts =>
    have hmore : ¬ after.atEnd = true := by simp [hc'.atEnd_iff, hr]
    simp only [atBoundary, kind_eq hr, hmore, List.head?_cons]
    grind

end Statements

/-- On a stream without invalid tokens, what is skipped of a broken statement ends at a boundary, unless the
statement is broken at its first token, this is no semicolon but stands behind one, and the second token is no
boundary. Then nothing but the first token is skipped. -/
theorem broken_statement_bounded_iff (S : TokenStream)
    (h : ∀ t ∈ S.tokens, t.kind ≠ .invalid ∧ t.kind ≠ .endOfFile) :
    (parse S).recoveries = (repairs S).length ∧
    ∀ start broken, .statement start broken ∈ repairs S →
      ((statement start).value = none ∧ (statement start).next = broken) ∧
      ∃ past own, S.tokens = past ++ start.rest ∧ start.rest = own ++ (broken.recover start).rest ∧ own ≠ [] ∧
        (Bounded own (broken.recover start) ↔ ¬ Slipped past start broken) ∧
        (Slipped past start broken → own = [start.lookahead]) := by
  refine ⟨recoveries_parse h, fun start broken hp => ?_⟩
  obtain ⟨hgenuine, hc, past, hpast, hlast⟩ := repairs_genuine h hp
  refine ⟨hgenuine.2, past, ?_⟩
  dsimp only [Repair.start] at hc hpast hlast
  have hbehind : (∃ t ∈ past.getLast?, t.kind = .punct .semicolon) ↔ start.last = .punct .semicolon := by
    rw [hlast]
    cases past.getLast? <;> simp
  by_cases hstuck : broken.beginRecovery.synchronize.remaining = start.remaining
  · obtain ⟨hsame, hsemi⟩ := (stuck_iff hc hgenuine).1 hstuck
    have hrest := recover_of_stuck hc hgenuine hstuck
    refine ⟨[start.lookahead], hpast, hrest, List.cons_ne_nil _ _, ?_, fun _ => rfl⟩
    exact bounded_first_iff hc hrest hsame (hbehind.2 hsemi)
  · have hnot : ¬ Slipped past start broken := fun hslip =>
      hstuck ((stuck_iff hc hgenuine).2 ⟨hslip.1, hbehind.1 hslip.2.1⟩)
    obtain ⟨own, hne, hrest, hbounded⟩ := bounded_of_moved hc hgenuine hstuck
    exact ⟨own, hpast, hrest, hne, iff_of_true hbounded hnot, fun hslip => absurd hslip hnot⟩

/-- The tokens of `int f() { 1; ) 2 3; }`. -/
def strayParenthesis : TokenStream :=
  let place (n : Nat) : Position := ⟨0, 0, ⟨n, n + 1⟩⟩
  let word (n : Nat) (kind : Kind) (text : String) : Token := ⟨kind, text, place n⟩
  let sign (n : Nat) (p : Punctuator) : Token := ⟨.punct p, p.spelling, place n⟩
  ⟨[word 0 .intKeyword "int", word 4 .identifier "f", sign 5 .openParen, sign 6 .closeParen, sign 8 .openBrace,
    word 10 .number "1", sign 11 .semicolon, sign 13 .closeParen, word 15 .number "2", word 17 .number "3",
    sign 18 .semicolon, sign 20 .closeBrace], place 21⟩

/-- The reader before the parenthesis, which starts a statement. -/
def beforeParenthesis : Reader where
  rest := strayParenthesis.tokens.drop 7
  ending := strayParenthesis.ending
  last := .punct .semicolon
  pulled := 8

/-- The reader behind it, where reading goes on. -/
def behindParenthesis : Reader where
  rest := strayParenthesis.tokens.drop 8
  ending := strayParenthesis.ending
  last := .punct .closeParen
  pulled := 9
  remarks := [.mistake .expression ⟨0, 0, ⟨13, 14⟩⟩ false, .recovery]

theorem repairs_strayParenthesis :
    (repairs strayParenthesis).head? =
      some (.statement beforeParenthesis (beforeParenthesis.note .expression)) := by
  cbv

theorem recover_parenthesis :
    (beforeParenthesis.note .expression).recover beforeParenthesis = behindParenthesis := by
  cbv

theorem strayParenthesis_slips :
    Slipped (strayParenthesis.tokens.take 7) beforeParenthesis (beforeParenthesis.note .expression) :=
  ⟨rfl, ⟨_, rfl, rfl⟩, by decide, _, rfl, by decide⟩

/-- Only the parenthesis is skipped of the broken statement. -/
theorem strayParenthesis_skipped :
    ∃ own, beforeParenthesis.rest =
        own ++ ((beforeParenthesis.note .expression).recover beforeParenthesis).rest ∧
      own = [beforeParenthesis.lookahead] := by
  obtain ⟨-, hall⟩ := broken_statement_bounded_iff strayParenthesis (by decide)
  obtain ⟨-, past, own, hpast, hown, -, -, hslip⟩ := hall _ _ (List.mem_of_head? repairs_strayParenthesis)
  have htake : past = strayParenthesis.tokens.take 7 := by
    apply (List.append_left_inj beforeParenthesis.rest).1
    rw [← hpast]
    exact (List.take_append_drop 7 _).symm
  rw [htake] at hslip
  exact ⟨own, hown, hslip strayParenthesis_slips⟩

/-- What is left of the broken statement is read as a statement of its own, which is broken as well. -/
theorem strayParenthesis_not_bounded :
    ∃ start broken, .statement start broken ∈ repairs strayParenthesis ∧
      (∀ own, start.rest = own ++ (broken.recover start).rest → ¬ Bounded own (broken.recover start)) ∧
      (statement (broken.recover start)).value = none ∧
      (statement (broken.recover start)).next.remarks.filterMap Remark.problem? =
        [.syntactic "expected expression" ⟨0, 0, ⟨13, 14⟩⟩,
          .syntactic "expected ';' after expression" ⟨0, 0, ⟨17, 18⟩⟩] := by
  refine ⟨_, _, List.mem_of_head? repairs_strayParenthesis, ?_⟩
  rw [recover_parenthesis]
  refine ⟨fun own hown => ?_, by cbv, by cbv⟩
  have hfirst : own = [beforeParenthesis.lookahead] := by
    apply (List.append_left_inj behindParenthesis.rest).1
    rw [← hown]
    rfl
  rw [hfirst]
  unfold Bounded
  decide

end SmallC.Grammar
