import Mathlib
import SmallC.Proofs.Grammar.Moves

/-!
# What invalid tokens silence

Taking the invalid tokens out of a stream changes nothing about how the rest of it is read: the same tokens are
consumed, and the same mistakes are made at the same points. What invalid tokens do is to keep mistakes quiet.
A mistake is silenced exactly where an invalid token was passed over since the last recovery started, or since
the beginning; without invalid tokens every mistake is reported.
-/
namespace SmallC

/-- The stream without its invalid tokens. -/
def TokenStream.withoutInvalid (S : TokenStream) : TokenStream :=
  ⟨S.tokens.filter Grammar.isValid, S.ending⟩

namespace Grammar

/-- The token that a move consumes. -/
def Move.token? : Move → Option Token
  | consume t => some t
  | mend _ _ => none

/-- The mistake that a move is made for. -/
def Move.mistake? : Move → Option (Expectation × Position)
  | consume _ => none
  | mend wanted pos => some (wanted, pos)

theorem Move.relocate_id : Move.relocate id = id := by
  funext m
  cases m <;> rfl

namespace Remark

def isLexical : Remark → Bool
  | lexical _ _ => true
  | _ => false

/-- The mistake that is remarked on, reported or not. -/
def mistake? : Remark → Option (Expectation × Position)
  | mistake wanted pos _ => some (wanted, pos)
  | _ => none

/-- What was remarked since the last recovery started, the latest first. -/
def sinceRecovery (ms : List Remark) : List Remark :=
  ms.reverse.takeWhile (· != .recovery)

/-- An invalid token was remarked on since the last recovery started. -/
def disturbed (ms : List Remark) : Bool :=
  (sinceRecovery ms).any isLexical

theorem disturbed_recovery (ms : List Remark) : disturbed (ms ++ [.recovery]) = false := by
  unfold disturbed sinceRecovery
  rw [List.reverse_append]
  rfl

theorem disturbed_lexical (ms : List Remark) (bad : List Token) :
    disturbed (ms ++ bad.map fun t => .lexical t.lexeme t.pos) = (disturbed ms || !bad.isEmpty) := by
  have hkeep : ∀ m ∈ (bad.map fun t => Remark.lexical t.lexeme t.pos).reverse, (m != .recovery) = true := by
    intro m hm
    obtain ⟨t, -, rfl⟩ := List.mem_map.1 (List.mem_reverse.1 hm)
    rfl
  unfold disturbed sinceRecovery
  rw [List.reverse_append, List.takeWhile_append_of_pos hkeep, List.any_append, List.any_reverse,
    List.any_map, Bool.or_comm]
  cases bad <;> rfl

theorem disturbed_of_not_lexical {ms : List Remark} (h : ∀ m ∈ ms, m.isLexical = false) :
    disturbed ms = false := by
  refine List.any_eq_false.2 fun m hm => ?_
  rw [h m (List.mem_reverse.1 ((List.takeWhile_sublist _).subset hm))]
  exact Bool.noConfusion

/-- Every mistake is silenced exactly where an invalid token disturbs it. -/
def Accounted (ms : List Remark) : Prop :=
  ∀ before wanted pos silenced after, ms = before ++ .mistake wanted pos silenced :: after →
    silenced = disturbed before

theorem Accounted.append_one {ms : List Remark} (h : Accounted ms) {m : Remark}
    (hm : ∀ wanted pos silenced, m = .mistake wanted pos silenced → silenced = disturbed ms) :
    Accounted (ms ++ [m]) := by
  intro before wanted pos silenced after hsplit
  -- the mistake is the remark that was added, or it stands among those before
  rcases List.eq_nil_or_concat after with rfl | ⟨init, last, rfl⟩
  · obtain ⟨rfl, hlast⟩ := List.append_inj' hsplit rfl
    exact hm wanted pos silenced (List.cons.inj hlast).1
  · rw [List.concat_eq_append, ← List.cons_append, ← List.append_assoc] at hsplit
    exact h before wanted pos silenced init (List.append_inj' hsplit rfl).1

theorem Accounted.append {ms : List Remark} (h : Accounted ms) {ns : List Remark}
    (hns : ∀ m ∈ ns, m.mistake? = none) : Accounted (ms ++ ns) := by
  induction ns generalizing ms with
  | nil => rwa [List.append_nil]
  | cons m ns ih =>
    have hone : Accounted (ms ++ [m]) := by
      refine h.append_one fun wanted pos silenced hm => ?_
      subst hm
      cases hns _ List.mem_cons_self
    rw [← List.singleton_append, ← List.append_assoc]
    exact ih hone fun k hk => hns k (List.mem_cons_of_mem m hk)

/-- The problem that a mistake is when it is reported. -/
def mistakeProblem (m : Expectation × Position) : Problem :=
  .syntactic m.1.message m.2

/-- The problems of syntax that are reported are some of the mistakes. -/
theorem syntactic_sublist (ms : List Remark) :
    ((ms.filterMap problem?).filter (·.kind == .syntactic)).Sublist
      ((ms.filterMap mistake?).map mistakeProblem) := by
  induction ms with
  | nil => exact .slnil
  | cons m ms ih =>
    match m with
    | .lexical _ _ | .recovery => exact ih
    | .mistake _ _ false => exact ih.cons_cons _
    | .mistake _ _ true => exact ih.cons _

/-- Where nothing is silenced and no token is invalid, the problems are the mistakes. -/
theorem problems_eq_of_loud {ms : List Remark} (hlex : ∀ m ∈ ms, m.isLexical = false)
    (hloud : ∀ wanted pos, .mistake wanted pos true ∉ ms) :
    ms.filterMap problem? = (ms.filterMap mistake?).map mistakeProblem := by
  induction ms with
  | nil => rfl
  | cons m ms ih =>
    have hmore := ih (fun k hk => hlex k (List.mem_cons_of_mem m hk))
      fun wanted pos hk => hloud wanted pos (List.mem_cons_of_mem m hk)
    match m with
    | .lexical _ _ => cases hlex _ List.mem_cons_self
    | .mistake _ _ true => exact absurd List.mem_cons_self (hloud _ _)
    | .mistake _ _ false => exact congrArg (_ :: ·) hmore
    | .recovery => exact hmore

end Remark

open Remark

namespace Reader

variable {φ : Position → Position} {r r' s s' : Reader} {ms : List Move}

/-- A reader goes on by moves. -/
inductive Goes (r : Reader) : List Move → Reader → Prop where
  | refl : Goes r [] r
  | consume {ms : List Move} {s : Reader} (h : Goes r ms s) (more : s.rest ≠ []) :
      Goes r (ms ++ [.consume s.lookahead]) s.advance
  | mend {ms : List Move} {s : Reader} (h : Goes r ms s) (wanted : Expectation) :
      Goes r (ms ++ [.mend wanted s.pos]) (s.note wanted).beginRecovery

theorem Along.goes (h : Along r r' ms s s') : Goes r ms s := by
  induction h with
  | refl => exact .refl
  | consume _ more ih => exact ih.consume more
  | mend _ wanted ih => exact ih.mend wanted

/-- The other reader makes the moves of the first, moved. -/
theorem Along.goes' (h : Along r r' ms s s') (ht : Twin φ r r') :
    Goes r' (ms.map (Move.relocate φ)) s' := by
  induction h with
  | refl => exact .refl
  | consume hs more ih =>
    have hgoes := ih.consume ((ht.along hs).rest_ne_nil more)
    rw [(ht.along hs).lookahead] at hgoes
    rw [List.map_append]
    exact hgoes
  | mend hs wanted ih =>
    have hgoes := ih.mend wanted
    rw [(ht.along hs).pos] at hgoes
    rw [List.map_append]
    exact hgoes

/-- What was consumed is what is no longer left of the valid tokens. -/
theorem Goes.tokens (h : Goes r ms s) (hr : r.Settled) :
    s.Settled ∧
      r.rest.filter isValid = ms.filterMap Move.token? ++ s.rest.filter isValid := by
  induction h with
  | refl => exact ⟨hr, rfl⟩
  | @consume ms s h more ih =>
    obtain ⟨hfront, htokens⟩ := ih
    refine ⟨settled_settle _, ?_⟩
    obtain ⟨t, ts, hs⟩ := List.exists_cons_of_ne_nil more
    have hvalid : isValid t = true := hfront t (by rw [hs]; rfl)
    have hadvance : s.advance.rest.filter isValid = ts.filter isValid := by
      refine (filter_dropWhile_invalid s.rest.tail).trans ?_
      rw [hs]
      rfl
    have hlookahead : s.lookahead = t := by rw [lookahead, hs]; rfl
    rw [htokens, hs, List.filter_cons_of_pos hvalid, hadvance, hlookahead, List.filterMap_append,
      List.append_assoc]
    rfl
  | mend _ wanted ih =>
    obtain ⟨hfront, htokens⟩ := ih
    refine ⟨hfront, ?_⟩
    rw [List.filterMap_append, List.append_assoc]
    exact htokens

theorem filterMap_settle {β : Type} {f : Remark → Option β} (hf : ∀ message pos, f (.lexical message pos) = none)
    (r : Reader) : r.settle.remarks.filterMap f = r.remarks.filterMap f := by
  have hnone : (r.rest.takeWhile (·.kind == .invalid)).filterMap
      (f ∘ fun t => .lexical t.lexeme t.pos) = [] :=
    List.filterMap_eq_nil_iff.2 fun t _ => hf t.lexeme t.pos
  rw [settle_remarks, List.filterMap_append, List.filterMap_map, hnone, List.append_nil]

theorem Goes.mistakes (h : Goes r ms s) :
    s.remarks.filterMap mistake? = r.remarks.filterMap mistake? ++ ms.filterMap Move.mistake? := by
  induction h with
  | refl => rw [List.filterMap_nil, List.append_nil]
  | consume _ _ ih =>
    refine (filterMap_settle (fun _ _ => rfl) _).trans (ih.trans ?_)
    rw [List.filterMap_append]
    exact (congrArg (_ ++ ·) (List.append_nil _)).symm
  | mend _ wanted ih =>
    simp only [note, beginRecovery, List.filterMap_append, ih, List.append_assoc]
    rfl

theorem count_recovery_settle (r : Reader) :
    r.settle.remarks.count .recovery = r.remarks.count .recovery := by
  have hnone : ((r.rest.takeWhile (·.kind == .invalid)).map fun t =>
      Remark.lexical t.lexeme t.pos).count .recovery = 0 := by
    refine List.count_eq_zero.2 fun hm => ?_
    obtain ⟨t, -, ht⟩ := List.mem_map.1 hm
    cases ht
  rw [settle_remarks, List.count_append, hnone, Nat.add_zero]

/-- There is one recovery for every mistake. -/
theorem Goes.recoveries (h : Goes r ms s) :
    s.remarks.count .recovery = r.remarks.count .recovery + (ms.filterMap Move.mistake?).length := by
  induction h with
  | refl => rfl
  | consume _ _ ih =>
    refine (count_recovery_settle _).trans (ih.trans ?_)
    rw [List.filterMap_append, List.length_append]
    rfl
  | mend _ wanted ih =>
    simp only [note, beginRecovery, List.count_append, List.filterMap_append, List.length_append, ih]
    rfl

/-- The reader is quiet, and has silenced mistakes, exactly because of invalid tokens. -/
structure Hushed (r : Reader) : Prop where
  quiet : r.quiet = disturbed r.remarks
  accounted : Accounted r.remarks

theorem Hushed.settle (h : Hushed r) : Hushed r.settle := by
  have hnone : ∀ m ∈ (r.rest.takeWhile (·.kind == .invalid)).map fun t => Remark.lexical t.lexeme t.pos,
      m.mistake? = none := by
    intro m hm
    obtain ⟨t, -, rfl⟩ := List.mem_map.1 hm
    rfl
  refine ⟨?_, ?_⟩
  · rw [settle_remarks, disturbed_lexical, ← h.quiet]
    rfl
  · rw [settle_remarks]
    exact h.accounted.append hnone

theorem Hushed.advance (h : Hushed r) : Hushed r.advance := by
  have hconsumed : Hushed { r with rest := r.rest.tail, last := r.kind } := ⟨h.quiet, h.accounted⟩
  exact hconsumed.settle

theorem Hushed.mend (h : Hushed r) (wanted : Expectation) : Hushed (r.note wanted).beginRecovery := by
  refine ⟨(disturbed_recovery _).symm, ?_⟩
  refine Accounted.append_one ?_ fun _ _ _ hm => nomatch hm
  refine h.accounted.append_one fun _ _ _ hm => ?_
  obtain ⟨-, -, rfl⟩ := Remark.mistake.inj hm
  exact h.quiet

theorem Goes.hushed (h : Goes r ms s) (hr : Hushed r) : Hushed s := by
  induction h with
  | refl => exact hr
  | consume _ _ ih => exact ih.advance
  | mend _ wanted ih => exact ih.mend wanted

theorem hushed_start (S : TokenStream) : Hushed (start S) := by
  refine Hushed.settle ⟨rfl, fun before wanted pos silenced after hsplit => ?_⟩
  exact absurd hsplit.symm (List.append_ne_nil_of_right_ne_nil _ (List.cons_ne_nil _ _))

/-- Nothing invalid is left, and nothing invalid was met. -/
structure Clear (r : Reader) : Prop where
  rest : ∀ t ∈ r.rest, isValid t = true
  remarks : ∀ m ∈ r.remarks, m.isLexical = false

theorem Clear.settle (h : Clear r) : Clear r.settle := by
  have hbad : r.rest.takeWhile (·.kind == .invalid) = [] := by
    refine List.eq_nil_iff_forall_not_mem.2 fun t ht => ?_
    have hvalid := h.rest t ((List.takeWhile_sublist _).subset ht)
    have hinvalid : (t.kind == .invalid) = true := List.all_eq_true.1 List.all_takeWhile t ht
    rw [isValid, bne, hinvalid] at hvalid
    cases hvalid
  refine ⟨fun t ht => h.rest t ((List.dropWhile_sublist _).subset ht), ?_⟩
  rw [settle_remarks, hbad, List.map_nil, List.append_nil]
  exact h.remarks

theorem Clear.advance (h : Clear r) : Clear r.advance := by
  have hconsumed : Clear { r with rest := r.rest.tail, last := r.kind } :=
    ⟨fun t ht => h.rest t (List.mem_of_mem_tail ht), h.remarks⟩
  exact hconsumed.settle

theorem Clear.mend (h : Clear r) (wanted : Expectation) : Clear (r.note wanted).beginRecovery := by
  refine ⟨h.rest, fun m hm => ?_⟩
  rcases List.mem_append.1 hm with hm | hm
  · rcases List.mem_append.1 hm with hm | hm
    · exact h.remarks m hm
    · rw [List.mem_singleton.1 hm]
      rfl
  · rw [List.mem_singleton.1 hm]
    rfl

theorem Goes.clear (h : Goes r ms s) (hr : Clear r) : Clear s := by
  induction h with
  | refl => exact hr
  | consume _ _ ih => exact ih.advance
  | mend _ wanted ih => exact ih.mend wanted

end Reader

open Reader

theorem twin_start_withoutInvalid (S : TokenStream) : Twin id (start S) (start S.withoutInvalid) := by
  have hid : Token.relocate id = id := rfl
  refine twin_settle ?_ rfl rfl
  change (S.tokens.filter isValid).filter isValid = (S.tokens.filter isValid).map (Token.relocate id)
  rw [hid, List.map_id, List.filter_filter]
  exact congrArg (S.tokens.filter ·) (funext fun t => Bool.and_self _)

theorem clear_start_withoutInvalid (S : TokenStream) : Clear (start S.withoutInvalid) := by
  refine Clear.settle ⟨fun t ht => ?_, fun m hm => nomatch hm⟩
  exact (List.mem_filter.1 ht).2

/-- Both streams are read over the same moves. -/
theorem goes_withoutInvalid (S : TokenStream) :
    ∃ ms, Goes (start S) ms (functions (start S)).2 ∧
      Goes (start S.withoutInvalid) ms (functions (start S.withoutInvalid)).2 := by
  have htwin := twin_start_withoutInvalid S
  obtain ⟨-, ms, halong⟩ := accord_functions htwin
  have hgoes := halong.goes' htwin
  rw [Move.relocate_id, List.map_id] at hgoes
  exact ⟨ms, halong.goes, hgoes⟩

namespace Parse

/-- The mistakes that were made, reported or not. -/
def mistakes (p : Parse) : List (Expectation × Position) :=
  p.remarks.filterMap mistake?

/-- Whether there was any mistake; invalid tokens do not count. -/
def hasMistake (p : Parse) : Bool :=
  p.remarks.any (·.mistake?.isSome)

/-- How many times a recovery was started. -/
def recoveries (p : Parse) : Nat :=
  p.remarks.count .recovery

/-- The problems of syntax that were reported. -/
def syntaxProblems (p : Parse) : List Problem :=
  p.problems.filter (·.kind == .syntactic)

theorem hasMistake_eq (p : Parse) : p.hasMistake = !p.mistakes.isEmpty := by
  unfold hasMistake mistakes
  induction p.remarks with
  | nil => rfl
  | cons m ms ih =>
    match m with
    | .mistake _ _ _ => rfl
    | .lexical _ _ | .recovery => exact ih

end Parse

section

variable {S : TokenStream} {ms : List Move}

theorem Reader.Goes.parse_mistakes (h : Goes (start S) ms (functions (start S)).2) :
    (parse S).mistakes = ms.filterMap Move.mistake? := by
  have hstart : (start S).remarks.filterMap mistake? = [] := filterMap_settle (fun _ _ => rfl) _
  rw [Parse.mistakes, parse_remarks, h.mistakes, hstart, List.nil_append]

theorem Reader.Goes.parse_recoveries (h : Goes (start S) ms (functions (start S)).2) :
    (parse S).recoveries = (parse S).mistakes.length := by
  have hstart : (start S).remarks.count .recovery = 0 := count_recovery_settle _
  rw [Parse.recoveries, h.parse_mistakes, parse_remarks, h.recoveries, hstart, Nat.zero_add]

end

theorem accounted_parse (S : TokenStream) : Accounted (parse S).remarks := by
  obtain ⟨ms, hgoes, -⟩ := goes_withoutInvalid S
  rw [parse_remarks]
  exact (hgoes.hushed (hushed_start S)).accounted

theorem problems_withoutInvalid (S : TokenStream) :
    (parse S.withoutInvalid).problems = (parse S.withoutInvalid).mistakes.map mistakeProblem := by
  obtain ⟨ms, -, hgoes⟩ := goes_withoutInvalid S
  have hlex : ∀ m ∈ (parse S.withoutInvalid).remarks, m.isLexical = false := by
    rw [parse_remarks]
    exact (hgoes.clear (clear_start_withoutInvalid S)).remarks
  refine problems_eq_of_loud hlex fun wanted pos hm => ?_
  obtain ⟨before, after, hsplit⟩ := List.append_of_mem hm
  have hdisturbed := accounted_parse S.withoutInvalid before wanted pos true after hsplit
  rw [disturbed_of_not_lexical fun m hm => hlex m (hsplit ▸ List.mem_append_left _ hm)] at hdisturbed
  cases hdisturbed

/-- A stream is read as if its invalid tokens were not there, with the same mistakes between the same tokens. A
mistake is kept quiet if and only if an invalid token was pulled since the last recovery started. -/
theorem invalid_tokens_only_silence (S : TokenStream) :
    let p := parse S
    let p' := parse S.withoutInvalid
    (∃ ms, Goes (start S) ms (functions (start S)).2 ∧
      Goes (start S.withoutInvalid) ms (functions (start S.withoutInvalid)).2 ∧
      ms.filterMap Move.token? ++ (functions (start S)).2.rest.filter isValid = S.tokens.filter isValid ∧
      ms.filterMap Move.mistake? = p.mistakes) ∧
    p'.mistakes = p.mistakes ∧ p'.hasMistake = p.hasMistake ∧
    p'.problems = p'.mistakes.map mistakeProblem ∧ p'.syntaxProblems.length = p'.recoveries ∧
    p'.recoveries = p.recoveries ∧
    (∀ before wanted pos silenced after, p.remarks = before ++ .mistake wanted pos silenced :: after →
      (silenced = true ↔ ∃ m ∈ sinceRecovery before, m.isLexical = true)) ∧
    p.syntaxProblems.Sublist p'.syntaxProblems := by
  intro p p'
  obtain ⟨ms, hgoes, hgoes'⟩ := goes_withoutInvalid S
  have hmistakes : p'.mistakes = p.mistakes := by rw [hgoes'.parse_mistakes, hgoes.parse_mistakes]
  have hproblems : p'.problems = p'.mistakes.map mistakeProblem := problems_withoutInvalid S
  have hreported : p'.syntaxProblems = p'.mistakes.map mistakeProblem := by
    rw [Parse.syntaxProblems, hproblems]
    refine List.filter_eq_self.2 fun q hq => ?_
    obtain ⟨m, -, rfl⟩ := List.mem_map.1 hq
    rfl
  have htokens : S.tokens.filter isValid =
      ms.filterMap Move.token? ++ (functions (start S)).2.rest.filter isValid := by
    rw [← (hgoes.tokens (settled_settle _)).2]
    exact (filter_dropWhile_invalid S.tokens).symm
  refine ⟨⟨ms, hgoes, hgoes', htokens.symm, hgoes.parse_mistakes.symm⟩, hmistakes, ?_, hproblems, ?_, ?_, ?_,
    ?_⟩
  · rw [Parse.hasMistake_eq, Parse.hasMistake_eq, hmistakes]
  · rw [hreported, List.length_map, hgoes'.parse_recoveries]
  · rw [hgoes'.parse_recoveries, hgoes.parse_recoveries, hmistakes]
  · intro before wanted pos silenced after hsplit
    rw [accounted_parse S before wanted pos silenced after hsplit, disturbed, List.any_eq_true]
  · rw [hreported, hmistakes]
    exact syntactic_sublist p.remarks

/-- The tokens of `$ x`. -/
def badSignThenName : TokenStream :=
  ⟨[.invalid "unrecognized character '$'" ⟨0, 0, ⟨0, 1⟩⟩, ⟨.identifier, "x", ⟨0, 0, ⟨2, 3⟩⟩⟩],
    ⟨0, 0, ⟨3, 3⟩⟩⟩

/-- The name is no type, but only the sign in front of it is reported. -/
theorem badSignThenName_silenced :
    let sign : Remark := .lexical "unrecognized character '$'" ⟨0, 0, ⟨0, 1⟩⟩
    (parse badSignThenName).remarks = [sign, .mistake .typeName ⟨0, 0, ⟨2, 3⟩⟩ true, .recovery] ∧
      (∃ m ∈ sinceRecovery [sign], m.isLexical = true) ∧
      (parse badSignThenName.withoutInvalid).problems =
        [.syntactic "expected type name" ⟨0, 0, ⟨2, 3⟩⟩] := by
  intro sign
  have hremarks : (parse badSignThenName).remarks =
      [sign, .mistake .typeName ⟨0, 0, ⟨2, 3⟩⟩ true, .recovery] := by cbv
  obtain ⟨-, hmistakes, -, hproblems, -, -, hsilenced, -⟩ :=
    invalid_tokens_only_silence badSignThenName
  refine ⟨hremarks, (hsilenced [sign] .typeName _ true [.recovery] hremarks).1 rfl, ?_⟩
  rw [hproblems, hmistakes, Parse.mistakes, hremarks]
  rfl

end Grammar

end SmallC
