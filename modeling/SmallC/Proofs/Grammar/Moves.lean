import SmallC.Proofs.Grammar.Accord

/-!
# What reading can do to a reader

Whatever is read, a reader only ever consumes tokens while some are left, notes mistakes and starts
recoveries. `Moves` says so, and what holds of every reader on the way is then an induction on it. That reading
functions move a reader comes from reading beside itself. `Outcome.Regular` adds that a reading function that has no
value has noted a mistake.
-/
namespace SmallC.Grammar

namespace Reader

/-- The second reader comes about from the first by consuming, noting and recovering. -/
inductive Moves (r : Reader) : Reader → Prop where
  | refl : Moves r r
  | advance {s : Reader} (h : Moves r s) (more : s.rest ≠ []) : Moves r s.advance
  | note {s : Reader} (h : Moves r s) (wanted : Expectation) : Moves r (s.note wanted)
  | beginRecovery {s : Reader} (h : Moves r s) : Moves r s.beginRecovery

variable {r s t : Reader}

theorem Moves.trans (h : Moves r s) (h' : Moves s t) : Moves r t := by
  induction h' with
  | refl => exact h
  | advance _ more ih => exact ih.advance more
  | note _ wanted ih => exact ih.note wanted
  | beginRecovery _ ih => exact ih.beginRecovery

/-- There was a mistake or an invalid token, reported or not. -/
def Faulty (r : Reader) : Prop :=
  ∃ m ∈ r.remarks, m.isFault = true

theorem settle_remarks (r : Reader) :
    r.settle.remarks = r.remarks ++
      (r.rest.takeWhile (·.kind == .invalid)).map fun t => .lexical t.lexeme t.pos :=
  rfl

/-- Remarks are only added. -/
theorem Moves.remarks_prefix (h : Moves r s) : r.remarks <+: s.remarks := by
  induction h with
  | refl => exact List.prefix_rfl
  | advance _ _ ih => exact ih.trans (List.prefix_append ..)
  | note _ wanted ih => exact ih.trans (List.prefix_append ..)
  | beginRecovery _ ih => exact ih.trans (List.prefix_append ..)

theorem Moves.faulty (h : Moves r s) (hr : r.Faulty) : s.Faulty := by
  obtain ⟨m, hm, hf⟩ := hr
  exact ⟨m, h.remarks_prefix.subset hm, hf⟩

theorem note_faulty (r : Reader) (wanted : Expectation) : (r.note wanted).Faulty :=
  ⟨.mistake wanted r.pos r.quiet, List.mem_append_right _ (List.mem_singleton_self _), rfl⟩

/-- What readers do together are moves of the first one. -/
theorem Along.moves {r' s' : Reader} {ms : List Move} (h : Along r r' ms s s') : Moves r s := by
  induction h with
  | refl => exact .refl
  | consume _ more ih => exact ih.advance more
  | mend _ wanted ih => exact (ih.note wanted).beginRecovery

theorem Moves.settled (h : Moves r s) (hr : r.Settled) : s.Settled := by
  induction h with
  | refl => exact hr
  | advance _ _ _ => exact settled_settle _
  | note _ _ ih => exact ih
  | beginRecovery _ ih => exact ih

/-- A token is skipped only where one is left, as there was at the start. -/
theorem moves_ensureProgress (r : Reader) {start : Reader} (more : start.rest ≠ []) :
    Moves r (r.ensureProgress start) := by
  unfold ensureProgress
  split
  · next same =>
    refine .advance .refl (List.length_pos_iff.1 ?_)
    change 0 < r.remaining
    rw [same]
    exact List.length_pos_iff.2 more
  · exact .refl

theorem moves_recover (hr : r.Settled) {start : Reader} (more : start.rest ≠ []) :
    Moves r (r.recover start) := by
  have hbegin : Moves r r.beginRecovery := .beginRecovery .refl
  obtain ⟨_, hsync, -⟩ := along_synchronize (twin_self (hbegin.settled hr))
  exact (hbegin.trans hsync.moves).trans (moves_ensureProgress _ more)

theorem moves_recoverDeclaration (hr : r.Settled) {start : Reader} (more : start.rest ≠ []) :
    Moves r (r.recoverDeclaration start) := by
  have hbegin : Moves r (r.beginRecovery.ensureProgress start) :=
    (Moves.beginRecovery .refl).trans (moves_ensureProgress _ more)
  obtain ⟨_, hskip⟩ := along_skipDeclaration 0 (twin_self (hbegin.settled hr))
  exact hbegin.trans hskip.moves

theorem moves_expect (r : Reader) (kind : Kind) (wanted : Expectation) :
    Moves r (r.expect kind wanted).next := by
  unfold expect
  split
  · exact .note .refl wanted
  · next hr =>
    split
    · exact .advance .refl (rest_ne_nil_of_cons hr)
    · exact .note .refl wanted

end Reader

open Reader

/-- A reading function moves the reader, and where it has no value it has noted a mistake. -/
structure Outcome.Regular {α : Type} {n : Nat} {r : Reader} (o : Outcome n r α) : Prop where
  moves : Moves r o.next
  faulty : o.value = none → o.next.Faulty

theorem Outcome.Alike.regular {α β : Type} {K : Passage} {g : α → β} {n : Nat} {r r' : Reader}
    {o : Outcome n r α} {o' : Outcome n r' β} (h : o.Alike K g o') : o.Regular := by
  cases h with
  | value read _ along _ =>
    refine ⟨along.moves, fun hnone => ?_⟩
    cases read.symm.trans hnone
  | @broken _ s _ wanted _ _ along _ next _ =>
    have hnoted : Moves r o.next := by
      rw [next]
      exact along.moves.note wanted
    refine ⟨hnoted, fun _ => ?_⟩
    rw [next]
    exact note_faulty s wanted

section

variable {r : Reader}

theorem regular_statement (hr : r.Settled) : (statement r).Regular :=
  (alike_statement (twin_self hr)).regular

theorem regular_statements (hr : r.Settled) : (statements r).Regular :=
  (alike_statements (twin_self hr)).regular

theorem regular_function (hr : r.Settled) : (function r).Regular :=
  (alike_function (twin_self hr)).regular

theorem moves_functions (hr : r.Settled) : Moves r (functions r).2 := by
  obtain ⟨-, _, halong⟩ := accord_functions (twin_self hr)
  exact halong.moves

end

namespace Reader

def problems (r : Reader) : List Problem :=
  r.remarks.filterMap Remark.problem?

/-- A reader that is quiet, or has met a fault at all, has reported a problem. -/
def Told (r : Reader) : Prop :=
  r.quiet = true ∨ r.Faulty → r.problems ≠ []

/-- Problems are not taken back. -/
theorem problems_ne_nil {r s : Reader} (h : r.remarks <+: s.remarks) (hr : r.problems ≠ []) :
    s.problems ≠ [] := by
  obtain ⟨more, hs⟩ := h
  unfold problems at hr ⊢
  rw [← hs, List.filterMap_append]
  exact fun hnil => hr (List.append_eq_nil_iff.1 hnil).1

theorem Told.settle {r : Reader} (h : r.Told) : r.settle.Told := by
  cases hbad : r.rest.takeWhile (·.kind == .invalid) with
  | nil =>
    have hremarks : r.settle.remarks = r.remarks := by
      rw [settle_remarks, hbad, List.map_nil, List.append_nil]
    have hquiet : r.settle.quiet = r.quiet := by
      simp [Reader.settle, hbad]
    unfold Told Faulty problems
    rw [hremarks, hquiet]
    exact h
  | cons t bad =>
    intro _ hnil
    unfold problems at hnil
    rw [settle_remarks, hbad, List.filterMap_append, List.append_eq_nil_iff] at hnil
    cases hnil.2

theorem Told.advance {r : Reader} (h : r.Told) : r.advance.Told := by
  have hconsumed : Told { r with rest := r.rest.tail, last := r.kind } := h
  exact hconsumed.settle

/-- A mistake is kept quiet only where a problem has been reported. -/
theorem Told.note {r : Reader} (h : r.Told) (wanted : Expectation) : (r.note wanted).Told := by
  intro _
  cases hq : r.quiet with
  | true => exact problems_ne_nil (List.prefix_append ..) (h (.inl hq))
  | false =>
    intro hnil
    simp only [problems, Reader.note, hq, List.filterMap_append, List.append_eq_nil_iff] at hnil
    cases hnil.2

theorem Told.beginRecovery {r : Reader} (h : r.Told) : r.beginRecovery.Told := by
  rintro (hq | ⟨m, hm, hf⟩)
  · cases hq
  · have hfaulty : r.Faulty := by
      rcases List.mem_append.1 hm with hm | hm
      · exact ⟨m, hm, hf⟩
      · obtain rfl := List.mem_singleton.1 hm
        cases hf
    exact problems_ne_nil (List.prefix_append ..) (h (.inr hfaulty))

theorem Moves.told {r s : Reader} (h : Moves r s) (hr : r.Told) : s.Told := by
  induction h with
  | refl => exact hr
  | advance _ _ ih => exact ih.advance
  | note _ wanted ih => exact ih.note wanted
  | beginRecovery _ ih => exact ih.beginRecovery

theorem told_start (s : TokenStream) : (start s).Told := by
  apply Told.settle
  rintro (hq | ⟨m, hm, -⟩)
  · cases hq
  · cases hm

end Reader

theorem Remark.isFault_of_problem? {m : Remark} {p : Problem} (h : m.problem? = some p) :
    m.isFault = true := by
  cases m with
  | lexical | mistake => rfl
  | recovery => cases h

theorem parse_remarks (s : TokenStream) : (parse s).remarks = (functions (.start s)).2.remarks := by
  unfold parse
  dsimp only
  split <;> rfl

/-- A stream was read without a fault if and only if nothing was reported. -/
theorem hasFault_eq_false_iff (s : TokenStream) :
    (parse s).hasFault = false ↔ (parse s).problems = [] := by
  have htold := (moves_functions (settled_settle _)).told (told_start s)
  unfold Parse.hasFault Parse.problems
  rw [parse_remarks]
  constructor
  · intro hnone
    refine List.filterMap_eq_nil_iff.2 fun m hm => ?_
    rw [List.any_eq_false] at hnone
    cases hp : m.problem? with
    | none => rfl
    | some p => exact absurd (Remark.isFault_of_problem? hp) (hnone m hm)
  · intro hnil
    rw [List.any_eq_false]
    exact fun m hm hf => htold (.inr ⟨m, hm, hf⟩) hnil

end SmallC.Grammar
