import Mathlib
import SmallC.Proofs.Grammar.Silence
import SmallC.Proofs.Grammar.Soundness

/-!
# Which tokens reading passes

On a stream without invalid tokens, what a reading function passes is a stretch of the stream, whether it has a
value or not. `Passes` says which stretch lies between two readers and how many recoveries were started on it.
An expression never passes a brace or a semicolon, so a statement that is no block passes no brace, and while
it is broken it passes no semicolon either.
-/
namespace SmallC.Grammar

namespace Reader

/-- The tokens lie between the two readers, and `n` recoveries were started on the way. -/
structure Passes (r : Reader) (ts : List Token) (n : Nat) (s : Reader) : Prop where
  rest : r.rest = ts ++ s.rest
  last : s.last = (ts.getLast?.map Token.kind).getD r.last
  recoveries : s.remarks.count .recovery = r.remarks.count .recovery + n

variable {r s t : Reader} {ts us : List Token} {m n : Nat}

theorem Passes.refl (r : Reader) : Passes r [] 0 r :=
  ⟨rfl, rfl, rfl⟩

theorem Passes.trans (h : Passes r ts m s) (h' : Passes s us n t) : Passes r (ts ++ us) (m + n) t := by
  constructor
  · rw [h.rest, h'.rest, List.append_assoc]
  · rw [h'.last, h.last, List.getLast?_append]
    cases us.getLast? <;> rfl
  · rw [h'.recoveries, h.recoveries, Nat.add_assoc]

theorem passes_note (r : Reader) (wanted : Expectation) : Passes r [] 0 (r.note wanted) := by
  constructor
  · rfl
  · rfl
  · simp [note]

theorem passes_beginRecovery (r : Reader) : Passes r [] 1 r.beginRecovery := by
  constructor
  · rfl
  · rfl
  · simp [beginRecovery]

theorem Clean.passes (hc : r.Clean) (h : Passes r ts n s) : s.Clean := by
  intro t ht
  apply hc t
  rw [h.rest]
  exact List.mem_append_right ts ht

theorem Clean.passes_advance (hc : r.Clean) {u : Token} (hr : r.rest = u :: us) :
    Passes r [u] 0 r.advance := by
  have ha := hc.after_advance hr
  constructor
  · exact ha.rest
  · exact kind_eq hr
  · rw [ha.remarks, Nat.add_zero]

/-- A reader that sees anything but the end stands before a token. -/
theorem exists_of_kind {k : Kind} (h : r.kind = k) (hk : k ≠ .endOfFile) :
    ∃ u us, r.rest = u :: us ∧ u.kind = k := by
  cases hr : r.rest with
  | nil =>
    rw [← h] at hk
    simp [kind, lookahead, hr, Token.endOfFile] at hk
  | cons u us => exact ⟨u, us, rfl, by rw [← kind_eq hr, h]⟩

theorem Passes.remaining (h : Passes r ts n s) : r.remaining = ts.length + s.remaining := by
  unfold Reader.remaining
  rw [h.rest, List.length_append]

theorem Passes.exists_last (h : Passes r ts n s) (hne : ts ≠ []) : ∃ t ∈ ts.getLast?, t.kind = s.last := by
  have hsome := List.getLast?_eq_some_getLast hne
  refine ⟨ts.getLast hne, hsome, ?_⟩
  rw [h.last, hsome]
  rfl

/-- Moves that only consume pass the tokens that they consume. -/
theorem Along.passes {r' s' : Reader} {ms : List Move} {K : Kind → Prop} (hc : r.Clean)
    (h : Along r r' ms s s') (hms : ∀ m ∈ ms, m.Consumes K) :
    ∃ ts, Passes r ts 0 s ∧ ∀ u ∈ ts, K u.kind := by
  induction h with
  | refl => exact ⟨[], .refl r, List.forall_mem_nil _⟩
  | @consume ms s s' _ more ih =>
    obtain ⟨hbefore, hlast⟩ := List.forall_mem_append.1 hms
    obtain ⟨ts, hts, hK⟩ := ih hbefore
    obtain ⟨u, us, hs⟩ := List.exists_cons_of_ne_nil more
    have hkind : K s.kind := hlast _ (List.mem_singleton_self _)
    rw [kind_eq hs] at hkind
    refine ⟨ts ++ [u], hts.trans ((hc.passes hts).passes_advance hs), ?_⟩
    exact List.forall_mem_append.2 ⟨hK, List.forall_mem_singleton.2 hkind⟩
  | mend _ _ _ => exact (List.forall_mem_singleton.1 (List.forall_mem_append.1 hms).2).elim

end Reader

open Reader

namespace Outcome

variable {α β : Type} {n : Nat} {r r' s s' : Reader} {K L : Kind → Prop} {g : α → β} {ms : List Move}

/-- What was passed are tokens of certain kinds, without a recovery. -/
def Within (o : Outcome n r α) (K : Kind → Prop) : Prop :=
  ∃ ts, Passes r ts 0 o.next ∧ ∀ u ∈ ts, K u.kind

/-- The outcome of a statement that is no block: a semicolon is passed only where the statement ends with it. -/
structure Simple (o : Outcome n r α) : Prop where
  plain : o.Within Plain
  broken : o.value = none → o.Within Inner

theorem Within.mono {o : Outcome n r α} (h : o.Within K) (hKL : ∀ k, K k → L k) : o.Within L := by
  obtain ⟨ts, hts, hK⟩ := h
  exact ⟨ts, hts, fun u hu => hKL _ (hK u hu)⟩

theorem within_of_mistake {o : Outcome n r α} {wanted : Expectation} (hc : r.Clean) (h : Along r r' ms s s')
    (hms : ∀ m ∈ ms, m.Consumes K) (hnext : o.next = s.note wanted) : o.Within K := by
  obtain ⟨ts, hts, hK⟩ := h.passes hc hms
  have hnoted := hts.trans (passes_note s wanted)
  rw [List.append_nil, ← hnext] at hnoted
  exact ⟨ts, hnoted, hK⟩

variable {o : Outcome n r α} {o' : Outcome n r' β}

theorem Alike.within (h : o.Alike (.only K) g o') (hc : r.Clean) : o.Within K := by
  cases h with
  | value _ _ along all => exact along.passes hc all
  | broken _ _ along all next _ => exact within_of_mistake hc along all next

theorem Alike.simple (h : o.Alike .statement g o') (hc : r.Clean) : o.Simple := by
  cases h with
  | value read _ along all =>
    refine ⟨along.passes hc all, fun hnone => ?_⟩
    cases read.symm.trans hnone
  | broken _ _ along all next _ =>
    have hinner : o.Within Inner := within_of_mistake hc along all next
    exact ⟨hinner.mono fun _ hk => hk.1, fun _ => hinner⟩

end Outcome

/-- A statement that starts with no brace passes none. -/
theorem simple_statement {r : Reader} (hc : r.Clean) (h : r.kind ≠ .punct .openBrace) :
    (statement r).Simple := by
  have htwin := twin_self hc.settled
  cases hr : r.rest with
  | nil =>
    rw [statement_of_nil hr]
    exact (alike_expressionStatement htwin).simple hc
  | cons u us =>
    have hfirst : r.kind = u.kind := kind_eq hr
    rw [statement_of_cons hr]
    split
    · next hk =>
      have more := rest_ne_nil_of_cons hr
      exact (alike_returnStatement htwin (hfirst.trans hk) more more).simple hc
    · exact (alike_declaration htwin).simple hc
    · next hk => exact absurd (hfirst.trans hk) h
    · exact (alike_expressionStatement htwin).simple hc

end SmallC.Grammar
