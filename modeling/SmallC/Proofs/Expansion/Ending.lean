import SmallC.Proofs.Expansion.Run

/-!
# Reading comes to an end

A call for the next token goes through steps that show nothing until one shows a token. Every call comes
back, and calls made one after the other hand back the tokens of the run and then the mark at the end of
the first buffer, over and over and without any further change.
-/
namespace SmallC

namespace Scan

theorem token?_kind {cs lexeme rest : List Char} {kind : Kind}
    (h : token? cs = some (kind, lexeme, rest)) : kind ≠ .endOfFile := by
  unfold token? at h
  split at h
  · next word tail _ =>
    obtain ⟨rfl, -⟩ := Prod.mk.inj (Option.some.inj h)
    unfold Kind.ofWord
    split
    · exact Kind.noConfusion
    · split <;> exact Kind.noConfusion
  · split at h
    · cases h
    · cases h
    · split at h
      · obtain ⟨rfl, -⟩ := Prod.mk.inj (Option.some.inj h)
        exact Kind.noConfusion
      · obtain ⟨p, -, hp⟩ := Option.map_eq_some_iff.1 h
        obtain ⟨rfl, -⟩ := Prod.mk.inj hp
        exact Kind.noConfusion

theorem item_token_kind {cs lexeme rest : List Char} {kind : Kind}
    (h : item cs = .token kind lexeme rest) : kind ≠ .endOfFile := by
  unfold item at h
  split at h
  · cases h
  · split at h
    · next ht =>
      cases h
      exact token?_kind ht
    · cases h

theorem gap_nil : gap [] = ([], []) := by
  rw [gap]
  rfl

end Scan

theorem Frame.piece?_of_rest {f : Frame} (h : f.rest = []) : f.piece? = none := by
  unfold piece?
  rw [h, Scan.gap_nil]
  rfl

/-- No token of a buffer marks an end. -/
theorem Frame.piece?_kind {f g : Frame} {w : Token} (h : f.piece? = some (.token w, g)) :
    w.kind ≠ .endOfFile := by
  unfold piece? at h
  dsimp only at h
  split at h
  · cases h
  · obtain ⟨hw, -⟩ := Prod.mk.inj (Option.some.inj h)
    obtain rfl := Piece.token.inj hw
    exact Kind.noConfusion
  · next hi =>
    split at h
    · obtain ⟨hw, -⟩ := Prod.mk.inj (Option.some.inj h)
      obtain rfl := Piece.token.inj hw
      exact Scan.item_token_kind hi
    · split at h
      · cases h
      · obtain ⟨hw, -⟩ := Prod.mk.inj (Option.some.inj h)
        obtain rfl := Piece.token.inj hw
        exact Kind.noConfusion

namespace Preprocessor

variable {p q : Preprocessor} {t : Token}

/-- The step does not finish, and what it shows does not mark an end. -/
def Step.Ordinary : Step → Prop
  | .token t _ => t.kind ≠ .endOfFile
  | .silent _ => True
  | .finish _ _ => False

theorem insertFile_ordinary (p : Preprocessor) (path : String) (style : IncludeStyle)
    (pos : Position) : (p.insertFile path style pos).Ordinary := by
  unfold insertFile
  dsimp only
  split
  · exact Kind.noConfusion
  · split
    · exact Kind.noConfusion
    · trivial

theorem carryOut_ordinary (p : Preprocessor) (pos : Position)
    (outcome : Except Directive.Fault Directive) : (p.carryOut pos outcome).Ordinary := by
  rcases outcome with fault | d
  · exact Kind.noConfusion
  · cases d with
    | insert path style => exact p.insertFile_ordinary path style pos
    | nothing | define name body | undefine name => trivial

theorem replace_ordinary (p : Preprocessor) {w : Token} (hw : w.kind ≠ .endOfFile)
    (d : Definition) : (p.replace w d).Ordinary := by
  unfold replace
  split
  · exact hw
  · split
    · exact Kind.noConfusion
    · trivial

/-- A step finishes only where the buffer being read has run out. -/
theorem step_ordinary {x : Piece × Frame} (h : p.active.piece? = some x) : p.step.Ordinary := by
  obtain ⟨piece, g⟩ := x
  cases piece with
  | token w =>
    have hw := Frame.piece?_kind h
    rw [step_of_token h]
    split
    · exact replace_ordinary _ hw _
    · exact hw
  | directive pos outcome =>
    rw [step_of_directive h]
    exact carryOut_ordinary _ pos outcome

theorem kind_of_step_token (h : p.step = .token t q) : t.kind ≠ .endOfFile := by
  cases hx : p.active.piece? with
  | some x =>
    have hordinary := step_ordinary hx
    rw [h] at hordinary
    exact hordinary
  | none =>
    rw [step_of_none hx, leave] at h
    split at h <;> cases h

/-- A step that finishes reads the first buffer to its end. -/
theorem step_finish (h : p.step = .finish t q) :
    p.suspended = [] ∧ q = { p with active := p.active.pass p.active.rest [] } ∧
      t = .endOfFile (q.active.position []) := by
  cases hx : p.active.piece? with
  | some x =>
    have hordinary := step_ordinary hx
    rw [h] at hordinary
    exact hordinary.elim
  | none =>
    rw [step_of_none hx, leave] at h
    split at h
    · cases h
    · next hs =>
      cases h
      exact ⟨hs, rfl, rfl⟩

theorem mark_of_finish (h : p.step = .finish t q) : t = .endOfFile t.pos := by
  rw [(step_finish h).2.2]
  rfl

/-- What has finished finishes again, with the same mark and in the same state. -/
theorem step_again (h : p.step = .finish t q) : q.step = .finish t q := by
  obtain ⟨hs, rfl, rfl⟩ := step_finish h
  have hover : (p.active.pass p.active.rest []).piece? = none := Frame.piece?_of_rest rfl
  rw [step_of_none hover, leave, hs]
  rfl

/-- Only finitely many steps follow a state, so what holds before a step whenever it holds after it holds
of every state. -/
theorem step_induction {motive : Preprocessor → Prop}
    (token : ∀ p t q, p.step = .token t q → motive q → motive p)
    (silent : ∀ p q, p.step = .silent q → motive q → motive p)
    (finish : ∀ p t q, p.step = .finish t q → motive p) (p : Preprocessor) : motive p := by
  have hadvances := p.step_advances
  cases hs : p.step with
  | token t q =>
    have hcloser : q.Closer p := by rwa [hs] at hadvances
    exact token p t q hs (step_induction token silent finish q)
  | silent q =>
    have hcloser : q.Closer p := by rwa [hs] at hadvances
    exact silent p q hs (step_induction token silent finish q)
  | finish t q => exact finish p t q hs
termination_by p.unread
decreasing_by all_goals exact hcloser

/-- A call hands back `t` and leaves `q`: some steps show nothing, and the next one shows `t`. -/
def Returns (p : Preprocessor) (t : Token) (q : Preprocessor) : Prop :=
  ∃ r, Emits p [] r ∧ (r.step = .token t q ∨ r.step = .finish t q)

theorem next_of_silent (h : p.step = .silent q) : p.next = q.next := by
  rw [next_eq, h]

/-- Every call comes back. -/
theorem returns_next (p : Preprocessor) : p.Returns p.next.1 p.next.2 := by
  induction p using step_induction with
  | token p t q hs _ =>
    rw [next_eq, hs]
    exact ⟨p, .refl p, .inl hs⟩
  | silent p q hs ih =>
    obtain ⟨r, hr, hstep⟩ := ih
    rw [next_of_silent hs]
    exact ⟨r, .silent hs hr, hstep⟩
  | finish p t q hs =>
    rw [next_eq, hs]
    exact ⟨p, .refl p, .inr hs⟩

theorem Emits.next_eq {ts : List Token} (h : Emits p ts q) (hts : ts = []) : p.next = q.next := by
  induction h with
  | refl => rfl
  | token => cases hts
  | silent hs _ ih => rw [next_of_silent hs, ih hts]

theorem Returns.next_eq (h : p.Returns t q) : p.next = (t, q) := by
  obtain ⟨r, hr, hs | hs⟩ := h
  · rw [hr.next_eq rfl, Preprocessor.next_eq, hs]
  · rw [hr.next_eq rfl, Preprocessor.next_eq, hs]

/-- What is handed back by `n` calls one after the other, and the state that they leave. -/
def calls (p : Preprocessor) : Nat → List Token × Preprocessor
  | 0 => ([], p)
  | n + 1 =>
    let (ts, last) := p.next.2.calls n
    (p.next.1 :: ts, last)

/-- A run is made of calls up to the one that hands back the mark at the end. -/
theorem calls_run (p : Preprocessor) :
    p.calls p.run.1.toList.length = (p.run.1.toList, p.run.2) := by
  induction p using step_induction with
  | token p t q hs ih =>
    have hnext : p.next = (t, q) := by rw [next_eq, hs]
    rw [run_eq, hs]
    change p.calls (q.run.1.toList.length + 1) = (t :: q.run.1.toList, q.run.2)
    rw [calls, hnext, ih]
  | silent p q hs ih =>
    have hlength : q.run.1.toList.length = q.run.1.tokens.length + 1 := List.length_append
    rw [run_eq, hs]
    change p.calls q.run.1.toList.length = (q.run.1.toList, q.run.2)
    rw [← ih, hlength, calls, calls, next_of_silent hs]
  | finish p t q hs =>
    have hnext : p.next = (t, q) := by rw [next_eq, hs]
    rw [run_eq, hs]
    change p.calls 1 = ([.endOfFile t.pos], q)
    rw [calls, hnext, ← mark_of_finish hs, calls]

theorem run_tokens_kind (p : Preprocessor) : ∀ t ∈ p.run.1.tokens, t.kind ≠ .endOfFile := by
  induction p using step_induction with
  | token p t q hs ih =>
    rw [run_eq, hs]
    intro u hu
    rcases List.mem_cons.1 hu with rfl | hu
    · exact kind_of_step_token hs
    · exact ih u hu
  | silent p q hs ih =>
    rw [run_eq, hs]
    exact ih
  | finish p t q hs =>
    rw [run_eq, hs]
    exact fun _ hu => nomatch hu

theorem run_last_step (p : Preprocessor) :
    p.run.2.step = .finish (.endOfFile p.run.1.ending) p.run.2 := by
  induction p using step_induction with
  | token p t q hs ih =>
    rw [run_eq, hs]
    exact ih
  | silent p q hs ih =>
    rw [run_eq, hs]
    exact ih
  | finish p t q hs =>
    rw [run_eq, hs]
    change q.step = .finish (.endOfFile t.pos) q
    rw [← mark_of_finish hs]
    exact step_again hs

/-- Once a call has finished in the state it started in, so do all after it. -/
theorem calls_of_finish (h : p.step = .finish t p) (n : Nat) :
    p.calls n = (List.replicate n t, p) := by
  have hnext : p.next = (t, p) := by rw [next_eq, h]
  induction n with
  | zero => rfl
  | succ n ih => rw [calls, hnext, ih, List.replicate_succ]

/-- From whatever state, every call comes back, with what `next` says. The calls of a run hand back its
tokens and then the only mark of an end among them; every later call hands back the same mark and changes
nothing. -/
theorem calls_come_to_end (p : Preprocessor) :
    let mark : Token := .endOfFile p.run.1.ending
    (∀ q t r, Returns q t r ↔ q.next = (t, r)) ∧
      p.calls p.run.1.toList.length = (p.run.1.toList, p.run.2) ∧
      p.run.1.toList.filter (·.kind == .endOfFile) = [mark] ∧
      p.run.1.toList.getLast? = some mark ∧
      ∀ n, p.run.2.calls n = (List.replicate n mark, p.run.2) := by
  intro mark
  refine ⟨fun q t r => ⟨Returns.next_eq, fun h => ?_⟩, p.calls_run, ?_, List.getLast?_concat,
    calls_of_finish p.run_last_step⟩
  · have hreturns := q.returns_next
    rwa [h] at hreturns
  · have hnone : p.run.1.tokens.filter (·.kind == .endOfFile) = [] := by
      refine List.filter_eq_nil_iff.2 fun t ht hkind => ?_
      exact p.run_tokens_kind t ht (beq_iff_eq.1 hkind)
    rw [TokenStream.toList, List.filter_append, hnone]
    rfl

end Preprocessor

end SmallC
