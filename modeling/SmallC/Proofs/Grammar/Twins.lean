import SmallC.Grammar.Program
import SmallC.Proofs.Relocation

/-!
# Reading two streams side by side

Two streams that agree but for invalid tokens, and but for positions that were moved, are read in the same way.
`Twin` relates the readers, `Along` says that they have gone on together, and `Outcome.Alike` that a reading
function comes to the same for both, over moves that its `Passage` allows. No mistake follows another before a
recovery starts, so `Along` has both as one move and only a reading function that fails ends between them. What a
single reader does is what it does beside itself.
-/
namespace SmallC.Grammar

/-- A token that a reader can look at. -/
def isValid (t : Token) : Bool :=
  t.kind != .invalid

/-- What a reader does: it consumes a token, or notes a mistake and starts to recover from it. -/
inductive Move where
  | consume (t : Token)
  | mend (wanted : Expectation) (pos : Position)

/-- A token of one of the kinds is consumed. -/
def Move.Consumes (K : Kind → Prop) : Move → Prop
  | consume t => K t.kind
  | mend _ _ => False

/-- No brace. -/
def Plain (k : Kind) : Prop :=
  k ≠ .punct .openBrace ∧ k ≠ .punct .closeBrace

/-- Neither a brace nor a semicolon: what expressions are made of. -/
def Inner (k : Kind) : Prop :=
  Plain k ∧ k ≠ .punct .semicolon

instance : DecidablePred Plain :=
  fun _ => inferInstanceAs (Decidable (_ ∧ _))

instance : DecidablePred Inner :=
  fun _ => inferInstanceAs (Decidable (_ ∧ _))

/-- The moves that a reading function makes up to a value, and those that it makes up to a mistake. -/
structure Passage where
  value : Move → Prop
  broken : Move → Prop
  le : ∀ m, broken m → value m

namespace Passage

/-- Tokens of certain kinds are passed, whatever comes of it. -/
def only (K : Kind → Prop) : Passage :=
  ⟨Move.Consumes K, Move.Consumes K, fun _ hm => hm⟩

/-- A semicolon is passed only where the statement ends with it. -/
def statement : Passage where
  value := Move.Consumes Plain
  broken := Move.Consumes Inner
  le m hm := by
    cases m with
    | consume t => exact hm.1
    | mend wanted pos => exact hm.elim

def any : Passage :=
  ⟨fun _ => True, fun _ => True, fun _ hm => hm⟩

end Passage

def Move.relocate (φ : Position → Position) : Move → Move
  | consume t => consume (t.relocate φ)
  | mend wanted pos => mend wanted (φ pos)

theorem filter_dropWhile_invalid (ts : List Token) :
    (ts.dropWhile (·.kind == .invalid)).filter isValid = ts.filter isValid := by
  induction ts with
  | nil => rfl
  | cons t ts ih =>
    rw [List.dropWhile_cons]
    split
    · next ht =>
      have hskip : ¬ isValid t = true := by simp [isValid, beq_iff_eq.1 ht]
      rw [ih, List.filter_cons_of_neg hskip]
    · rfl

namespace Reader

/-- The reader does not stand before an invalid token. -/
def Settled (r : Reader) : Prop :=
  ∀ t ∈ r.rest.head?, isValid t = true

/-- The second reader is left with the tokens and the ending of the first, moved, up to invalid tokens; neither
stands before an invalid one. -/
structure Twin (φ : Position → Position) (r r' : Reader) : Prop where
  tokens : r'.rest.filter isValid = (r.rest.filter isValid).map (Token.relocate φ)
  front : r.Settled
  front' : r'.Settled
  ending : r'.ending = φ r.ending
  last : r'.last = r.last

variable {φ : Position → Position} {r r' s s' t t' : Reader} {ms : List Move}

theorem settled_settle (r : Reader) : r.settle.Settled := by
  intro t ht
  have hnot := List.head?_dropWhile_not (·.kind == .invalid) r.rest
  change (r.rest.dropWhile (·.kind == .invalid)).head? = some t at ht
  rw [ht] at hnot
  simpa [isValid] using hnot

/-- Pulling the lookahead leaves the valid tokens. -/
theorem twin_settle (ht : r'.rest.filter isValid = (r.rest.filter isValid).map (Token.relocate φ))
    (he : r'.ending = φ r.ending) (hl : r'.last = r.last) : Twin φ r.settle r'.settle := by
  refine ⟨?_, settled_settle r, settled_settle r', he, hl⟩
  change (r'.rest.dropWhile _).filter isValid = ((r.rest.dropWhile _).filter isValid).map _
  rw [filter_dropWhile_invalid, filter_dropWhile_invalid, ht]

theorem twin_self (h : r.Settled) : Twin id r r := by
  have hid : Token.relocate id = id := rfl
  refine ⟨?_, h, h, rfl, rfl⟩
  rw [hid, List.map_id]

/-- Both have run out, or both stand before the same token. -/
theorem Twin.rest_cases (h : Twin φ r r') :
    (r.rest = [] ∧ r'.rest = []) ∨
      ∃ t ts ts', r.rest = t :: ts ∧ r'.rest = t.relocate φ :: ts' ∧
        ts'.filter isValid = (ts.filter isValid).map (Token.relocate φ) := by
  have htokens := h.tokens
  cases hr : r.rest with
  | nil =>
    cases hr' : r'.rest with
    | nil => exact .inl ⟨rfl, rfl⟩
    | cons u us =>
      have hu : isValid u = true := h.front' u (by rw [hr']; rfl)
      rw [hr, hr', List.filter_cons_of_pos hu] at htokens
      cases htokens
  | cons t ts =>
    have ht : isValid t = true := h.front t (by rw [hr]; rfl)
    rw [hr, List.filter_cons_of_pos ht, List.map_cons] at htokens
    cases hr' : r'.rest with
    | nil =>
      rw [hr'] at htokens
      cases htokens
    | cons u us =>
      have hu : isValid u = true := h.front' u (by rw [hr']; rfl)
      rw [hr', List.filter_cons_of_pos hu] at htokens
      obtain ⟨rfl, hus⟩ := List.cons.inj htokens
      exact .inr ⟨t, ts, us, rfl, rfl, hus⟩

theorem Twin.rest_ne_nil (h : Twin φ r r') (hr : r.rest ≠ []) : r'.rest ≠ [] := by
  obtain ⟨hnil, -⟩ | ⟨t, ts, ts', -, hr', -⟩ := h.rest_cases
  · exact absurd hnil hr
  · rw [hr']
    exact List.cons_ne_nil _ _

theorem Twin.lookahead (h : Twin φ r r') : r'.lookahead = r.lookahead.relocate φ := by
  unfold Reader.lookahead
  obtain ⟨hr, hr'⟩ | ⟨t, ts, ts', hr, hr', -⟩ := h.rest_cases
  · rw [hr, hr', h.ending]
    rfl
  · rw [hr, hr']
    rfl

theorem Twin.kind (h : Twin φ r r') : r'.kind = r.kind := by
  rw [Reader.kind, h.lookahead]
  rfl

theorem Twin.pos (h : Twin φ r r') : r'.pos = φ r.pos := by
  rw [Reader.pos, h.lookahead]
  rfl

theorem Twin.atEnd (h : Twin φ r r') : r'.atEnd = r.atEnd := by
  rw [Reader.atEnd, Reader.atEnd, h.kind]

theorem Twin.operator? {α : Type} (h : Twin φ r r') (table : Punctuator → Option α) :
    r'.operator? table = r.operator? table := by
  unfold Reader.operator?
  obtain ⟨hr, hr'⟩ | ⟨t, ts, ts', hr, hr', -⟩ := h.rest_cases
  · rw [hr, hr']
  · rw [hr, hr']
    rfl

theorem Twin.advance (h : Twin φ r r') : Twin φ r.advance r'.advance := by
  refine twin_settle ?_ h.ending h.kind
  obtain ⟨hr, hr'⟩ | ⟨t, ts, ts', hr, hr', htokens⟩ := h.rest_cases
  · rw [hr, hr']
    rfl
  · rw [hr, hr']
    exact htokens

theorem Twin.note (h : Twin φ r r') (wanted : Expectation) : Twin φ (r.note wanted) (r'.note wanted) :=
  ⟨h.tokens, h.front, h.front', h.ending, h.last⟩

theorem Twin.beginRecovery (h : Twin φ r r') : Twin φ r.beginRecovery r'.beginRecovery :=
  ⟨h.tokens, h.front, h.front', h.ending, h.last⟩

/-- Two readers have gone on together; the moves are those of the first one. -/
inductive Along (r r' : Reader) : List Move → Reader → Reader → Prop where
  | refl : Along r r' [] r r'
  | consume {ms : List Move} {s s' : Reader} (h : Along r r' ms s s') (more : s.rest ≠ []) :
      Along r r' (ms ++ [.consume s.lookahead]) s.advance s'.advance
  | mend {ms : List Move} {s s' : Reader} (h : Along r r' ms s s') (wanted : Expectation) :
      Along r r' (ms ++ [.mend wanted s.pos]) (s.note wanted).beginRecovery
        (s'.note wanted).beginRecovery

theorem Along.trans {ms' : List Move} (h : Along r r' ms s s') (h' : Along s s' ms' t t') :
    Along r r' (ms ++ ms') t t' := by
  induction h' with
  | refl => rwa [List.append_nil]
  | consume _ more ih =>
    rw [← List.append_assoc]
    exact ih.consume more
  | mend _ wanted ih =>
    rw [← List.append_assoc]
    exact ih.mend wanted

theorem Twin.along (h : Twin φ r r') (hs : Along r r' ms s s') : Twin φ s s' := by
  induction hs with
  | refl => exact h
  | consume _ _ ih => exact ih.advance
  | mend _ wanted ih => exact (ih.note wanted).beginRecovery

end Reader

open Reader

namespace Outcome

variable {φ : Position → Position} {α β γ δ : Type} {m n : Nat} {r r' t t' : Reader} {g : α → β}
  {k : γ → δ} {ms : List Move} {J K : Passage}

/-- A reading function comes to the same for both readers: to a value, or to a mistake where both stand. -/
inductive Alike (K : Passage) (g : α → β) (o : Outcome n r α) (o' : Outcome n r' β) : Prop where
  | value {a : α} {ms : List Move} (read : o.value = some a) (read' : o'.value = some (g a))
      (along : Along r r' ms o.next o'.next) (all : ∀ m ∈ ms, K.value m)
  | broken {ms : List Move} {s s' : Reader} {wanted : Expectation} (lost : o.value = none)
      (lost' : o'.value = none) (along : Along r r' ms s s') (all : ∀ m ∈ ms, K.broken m)
      (next : o.next = s.note wanted) (next' : o'.next = s'.note wanted)

theorem alike_done {a : α} : (done r a).Alike K g (done r' (g a)) :=
  .value rfl rfl .refl (List.forall_mem_nil _)

theorem alike_consume {h : r.rest ≠ []} {h' : r'.rest ≠ []} {a : α} (hm : K.value (.consume r.lookahead)) :
    (consume r h a).Alike K g (consume r' h' (g a)) :=
  .value rfl rfl (.consume .refl h) (List.forall_mem_singleton.2 hm)

theorem alike_fail {wanted : Expectation} :
    (fail r wanted : Outcome n r α).Alike K g (fail r' wanted : Outcome n r' β) :=
  .broken rfl rfl .refl (List.forall_mem_nil _) rfl rfl

theorem Alike.any {o : Outcome n r α} {o' : Outcome n r' β} (h : o.Alike K g o') : o.Alike .any g o' := by
  cases h with
  | value read read' along _ => exact .value read read' along fun _ _ => trivial
  | broken lost lost' along _ next next' => exact .broken lost lost' along (fun _ _ => trivial) next next'

theorem Alike.map {o : Outcome n r α} {o' : Outcome n r' β} (h : o.Alike K g o') {f : α → γ} {f' : β → δ}
    (hf : ∀ a, f' (g a) = k (f a)) : (o.map f).Alike K k (o'.map f') := by
  cases h with
  | @value a _ hs hs' along all =>
    refine .value (a := f a) ?_ ?_ along all
    · exact congrArg (Option.map f) hs
    · rw [← hf]
      exact congrArg (Option.map f') hs'
  | broken hn hn' along all next next' =>
    exact .broken (congrArg (Option.map f) hn) (congrArg (Option.map f') hn') along all next next'

/-- What was passed before must be allowed up to a mistake, since one may follow. -/
theorem Alike.since {o : Outcome n t α} {o' : Outcome n t' β} (h : o.Alike K g o')
    (ha : Along r r' ms t t') (hms : ∀ m ∈ ms, K.broken m) (hlt : t.remaining + m ≤ r.remaining)
    (hlt' : t'.remaining + m ≤ r'.remaining) : (since hlt o).Alike K g (since hlt' o') := by
  cases h with
  | value hs hs' along all =>
    refine .value hs hs' (ha.trans along) fun m hm => ?_
    exact (List.mem_append.1 hm).elim (fun hm => K.le m (hms m hm)) (all m)
  | broken hn hn' along all next next' =>
    refine .broken hn hn' (ha.trans along) (fun m hm => ?_) next next'
    exact (List.mem_append.1 hm).elim (hms m) (all m)

/-- Behind a token that both consume. -/
theorem Alike.consumed {o : Outcome n r.advance α} {o' : Outcome n r'.advance β} (h : o.Alike K g o')
    (more : r.rest ≠ []) (hm : K.broken (.consume r.lookahead)) (hlt : r.advance.remaining + m ≤ r.remaining)
    (hlt' : r'.advance.remaining + m ≤ r'.remaining) :
    (Outcome.since hlt o).Alike K g (Outcome.since hlt' o') :=
  h.since (.consume .refl more) (List.forall_mem_singleton.2 hm) hlt hlt'

theorem Alike.andThen (ht : Twin φ r r') {o : Outcome m r α} {o' : Outcome m r' β} (h : o.Alike J g o')
    (hJ : ∀ m, J.value m → K.broken m)
    {f : α → (t : Reader) → t.remaining + m ≤ r.remaining → Outcome n t γ}
    {f' : β → (t : Reader) → t.remaining + m ≤ r'.remaining → Outcome n t δ}
    (hf : ∀ a t t' hlt hlt', Twin φ t t' → (f a t hlt).Alike K k (f' (g a) t' hlt')) :
    (o.andThen f).Alike K k (o'.andThen f') := by
  obtain ⟨value, next, le, lt⟩ := o
  obtain ⟨value', next', le', lt'⟩ := o'
  cases h with
  | @value a ms hs hs' along all =>
    obtain rfl : value = some a := hs
    obtain rfl : value' = some (g a) := hs'
    have hgoesOn := hf a next next' (lt rfl) (lt' rfl) (ht.along along)
    exact hgoesOn.since along (fun m hm => hJ m (all m hm)) (lt rfl) (lt' rfl)
  | broken hn hn' along all hnext hnext' =>
    obtain rfl : value = none := hn
    obtain rfl : value' = none := hn'
    exact .broken rfl rfl along (fun m hm => hJ m (J.le m (all m hm))) hnext hnext'

end Outcome

end SmallC.Grammar
