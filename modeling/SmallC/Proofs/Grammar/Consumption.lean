import SmallC.Compile
import SmallC.Proofs.Expansion.Ending
import SmallC.Proofs.Grammar.Moves

/-!
# Reading consumes the whole stream

Whatever mistakes there are, reading goes on to the end of the stream, and every token is pulled once on the
way: the tokens that were pulled are the stream up to the lookahead. So every invalid token is reported,
in its place, and nothing is pulled behind the end.
-/
namespace SmallC.Grammar

/-- What is to be reported of the invalid tokens. -/
def complaints (ts : List Token) : List Problem :=
  (ts.filter (·.kind == .invalid)).map fun t => .lexical t.lexeme t.pos

theorem complaints_append (ts us : List Token) :
    complaints (ts ++ us) = complaints ts ++ complaints us := by
  simp [complaints]

theorem complaints_singleton {t : Token} (h : t.kind ≠ .invalid) : complaints [t] = [] := by
  simp [complaints, h]

namespace Reader

variable {S : TokenStream} {r s : Reader} {past : List Token}

/-- The problems with invalid tokens that were reported. -/
def lexicalProblems (r : Reader) : List Problem :=
  r.problems.filter (·.kind == .lexical)

theorem lexicalProblems_settle (r : Reader) :
    r.settle.lexicalProblems =
      r.lexicalProblems ++ complaints (r.rest.takeWhile (·.kind == .invalid)) := by
  have hall : (r.rest.takeWhile (·.kind == .invalid)).filter (·.kind == .invalid) =
      r.rest.takeWhile (·.kind == .invalid) :=
    List.filter_eq_self.2 (List.all_eq_true.1 List.all_takeWhile)
  unfold lexicalProblems problems complaints
  rw [settle_remarks, List.filterMap_append, List.filter_append, hall, List.filterMap_map]
  congr 1
  induction r.rest.takeWhile (·.kind == .invalid) with
  | nil => rfl
  | cons t bad ih => exact congrArg (_ :: ·) ih

theorem lexicalProblems_note (r : Reader) (wanted : Expectation) :
    (r.note wanted).lexicalProblems = r.lexicalProblems := by
  unfold lexicalProblems problems note
  rw [List.filterMap_append, List.filter_append]
  cases r.quiet <;> exact List.append_nil _

theorem lexicalProblems_beginRecovery (r : Reader) :
    r.beginRecovery.lexicalProblems = r.lexicalProblems := by
  unfold lexicalProblems problems beginRecovery
  rw [List.filterMap_append, List.filter_append]
  exact List.append_nil _

/-- `past` is what of the stream lies behind the reader, and its invalid tokens have been reported. -/
structure Behind (S : TokenStream) (past : List Token) (r : Reader) : Prop where
  ending : r.ending = S.ending
  tokens : S.tokens = past ++ r.rest
  reported : r.lexicalProblems = complaints past

/-- The reader has pulled what lies behind it and the lookahead, and each token once. -/
structure Abreast (S : TokenStream) (r : Reader) : Prop where
  behind : ∃ past, Behind S past r ∧ r.pulled = past.length + 1
  front : ∀ t ∈ r.rest.head?, t.kind ≠ .invalid

/-- Pulling the lookahead. -/
theorem Behind.settle (h : Behind S past r) (hp : r.pulled = past.length) : Abreast S r.settle := by
  refine ⟨⟨past ++ r.rest.takeWhile (·.kind == .invalid), ⟨h.ending, ?_, ?_⟩, ?_⟩, ?_⟩
  · rw [List.append_assoc, h.tokens]
    exact congrArg (past ++ ·) List.takeWhile_append_dropWhile.symm
  · rw [lexicalProblems_settle, h.reported, complaints_append]
  · rw [List.length_append, ← hp]
    rfl
  · intro t ht
    have hnot := List.head?_dropWhile_not (·.kind == .invalid) r.rest
    change (r.rest.dropWhile (·.kind == .invalid)).head? = some t at ht
    rw [ht] at hnot
    simpa using hnot

theorem abreast_start (S : TokenStream) : Abreast S (start S) := by
  have hbehind : Behind S [] { rest := S.tokens, ending := S.ending } := ⟨rfl, rfl, rfl⟩
  exact hbehind.settle rfl

theorem Abreast.advance (h : Abreast S r) (more : r.rest ≠ []) : Abreast S r.advance := by
  obtain ⟨⟨past, hb, hp⟩, hfront⟩ := h
  obtain ⟨t, rest, hr⟩ := List.exists_cons_of_ne_nil more
  have hvalid : t.kind ≠ .invalid := hfront t (by rw [hr]; rfl)
  have hconsumed : Behind S (past ++ [t]) { r with rest := r.rest.tail, last := r.kind } := by
    refine ⟨hb.ending, ?_, ?_⟩
    · rw [hb.tokens, hr, List.append_assoc]
      rfl
    · rw [complaints_append, complaints_singleton hvalid, List.append_nil]
      exact hb.reported
  refine hconsumed.settle ?_
  rw [List.length_append]
  exact hp

theorem Abreast.note (h : Abreast S r) (wanted : Expectation) : Abreast S (r.note wanted) := by
  obtain ⟨⟨past, hb, hp⟩, hfront⟩ := h
  refine ⟨⟨past, ⟨hb.ending, hb.tokens, ?_⟩, hp⟩, hfront⟩
  rw [lexicalProblems_note, hb.reported]

theorem Abreast.beginRecovery (h : Abreast S r) : Abreast S r.beginRecovery := by
  obtain ⟨⟨past, hb, hp⟩, hfront⟩ := h
  refine ⟨⟨past, ⟨hb.ending, hb.tokens, ?_⟩, hp⟩, hfront⟩
  rw [lexicalProblems_beginRecovery, hb.reported]

theorem Moves.abreast (h : Moves r s) (hr : Abreast S r) : Abreast S s := by
  induction h with
  | refl => exact hr
  | advance _ more ih => exact ih.advance more
  | note _ wanted ih => exact ih.note wanted
  | beginRecovery _ ih => exact ih.beginRecovery

/-- The lookahead is the token that was pulled last. -/
theorem Abreast.lookahead_eq (h : Abreast S r) : S.toList[r.pulled - 1]? = some r.lookahead := by
  obtain ⟨⟨past, hb, hp⟩, -⟩ := h
  rw [hp, Nat.add_sub_cancel, TokenStream.toList, hb.tokens, List.append_assoc,
    List.getElem?_append_right (Nat.le_refl _), Nat.sub_self, ← hb.ending]
  unfold lookahead
  cases r.rest with
  | nil => rfl
  | cons t rest => rfl

/-- A reader at the end of a stream whose tokens do not mark an end has nothing left. -/
theorem Abreast.rest_eq_nil (h : Abreast S r) (hS : ∀ t ∈ S.tokens, t.kind ≠ .endOfFile)
    (hend : r.atEnd = true) : r.rest = [] := by
  obtain ⟨⟨past, hb, -⟩, -⟩ := h
  cases hr : r.rest with
  | nil => rfl
  | cons t rest =>
    have ht : t ∈ S.tokens := by
      rw [hb.tokens, hr]
      exact List.mem_append_right past List.mem_cons_self
    refine absurd ?_ (hS t ht)
    simpa [atEnd, kind, lookahead, hr] using hend

end Reader

open Reader

/-- Functions are read until the lookahead marks the end. -/
theorem functions_atEnd (r : Reader) : (functions r).2.atEnd = true := by
  rw [functions]
  split
  · next h => exact h
  · next h =>
    have more := rest_ne_nil_of_atEnd h
    dsimp only
    split
    · next f t _ lt _ =>
      have less := lt rfl
      exact functions_atEnd t
    · next t le _ _ =>
      have less := recoverDeclaration_lt le more
      exact functions_atEnd (t.recoverDeclaration r)
termination_by r.remaining

/-- The reader that is left in the end has read all of the stream. -/
theorem abreast_functions (S : TokenStream) : Abreast S (functions (start S)).2 :=
  (moves_functions (settled_settle _)).abreast (abreast_start S)

theorem parse_lexicalProblems (S : TokenStream) :
    (parse S).problems.filter (·.kind == .lexical) = (functions (start S)).2.lexicalProblems := by
  unfold Parse.problems lexicalProblems Reader.problems
  rw [parse_remarks]

/-- The invalid tokens of a stream are reported, each once and in order. -/
theorem lexicalProblems_parse {S : TokenStream} (hS : ∀ t ∈ S.tokens, t.kind ≠ .endOfFile) :
    (parse S).problems.filter (·.kind == .lexical) = complaints S.toList := by
  have habreast := abreast_functions S
  have hnil := habreast.rest_eq_nil hS (functions_atEnd _)
  obtain ⟨⟨past, hb, -⟩, -⟩ := habreast
  have hpast : S.tokens = past := by rw [hb.tokens, hnil, List.append_nil]
  have hmark : complaints [.endOfFile S.ending] = [] := complaints_singleton Kind.noConfusion
  rw [parse_lexicalProblems, hb.reported, TokenStream.toList, complaints_append, hmark, hpast,
    List.append_nil]

/-- Lowering reports nothing about tokens. -/
theorem lexicalProblems_program (labels : Assembly.Labels) (unit : TranslationUnit) :
    (Lowering.program labels unit).problems.filter (·.kind == .lexical) = [] := by
  refine List.filter_eq_nil_iff.2 fun p hp => ?_
  obtain ⟨fault, -, rfl⟩ := List.mem_map.1 hp
  cases fault <;> exact Bool.noConfusion

theorem lexicalProblems_compile (style : Style) (load : Path → Option String) (log : Log)
    (job : Job) :
    (compile style load log job).problems.filter (·.kind == .lexical) =
      complaints (job.preprocessor load log.files).run.1.toList := by
  rw [← lexicalProblems_parse (job.preprocessor load log.files).run_tokens_kind]
  unfold compile
  dsimp only
  split
  · rfl
  · dsimp only
    rw [List.filter_append, lexicalProblems_program, List.append_nil]

theorem functions_rest {S : TokenStream} (hS : ∀ t ∈ S.tokens, t.kind ≠ .endOfFile) :
    (functions (start S)).2.rest = [] :=
  (abreast_functions S).rest_eq_nil hS (functions_atEnd _)

theorem functions_pulled {S : TokenStream} (hS : ∀ t ∈ S.tokens, t.kind ≠ .endOfFile) :
    (functions (start S)).2.pulled = S.toList.length := by
  obtain ⟨⟨past, hb, hp⟩, -⟩ := abreast_functions S
  rw [hp, TokenStream.toList, List.length_append, hb.tokens, functions_rest hS, List.append_nil]
  rfl

/-- Every stream is pulled to its end, each token once and always up to the lookahead, and its invalid tokens are
reported. So reading from calls makes the calls of a run. -/
theorem parse_pulls_whole_stream :
    (∀ S : TokenStream, (∀ t ∈ S.tokens, t.kind ≠ .endOfFile) →
      let last := (functions (start S)).2
      Moves (start S) last ∧ last.lookahead = .endOfFile S.ending ∧
        last.pulled = S.toList.length ∧
        (∀ r, Moves (start S) r → S.toList[r.pulled - 1]? = some r.lookahead) ∧
        (parse S).problems.filter (·.kind == .lexical) = complaints S.toList) ∧
    (∀ p : Preprocessor,
      p.calls (functions (start p.run.1)).2.pulled = (p.run.1.toList, p.run.2)) ∧
    ∀ (style : Style) (load : Path → Option String) (log : Log) (job : Job),
      (compile style load log job).problems.filter (·.kind == .lexical) =
        complaints (job.preprocessor load log.files).run.1.toList := by
  refine ⟨fun S hS => ?_, fun p => ?_, lexicalProblems_compile⟩
  · refine ⟨moves_functions (settled_settle _), ?_, functions_pulled hS,
      fun r hr => (hr.abreast (abreast_start S)).lookahead_eq, lexicalProblems_parse hS⟩
    obtain ⟨⟨past, hb, -⟩, -⟩ := abreast_functions S
    unfold lookahead
    rw [functions_rest hS, hb.ending]
    rfl
  · rw [functions_pulled p.run_tokens_kind]
    exact p.calls_run

/-- The tokens of `@ int f() { return $ ; { int`, with nothing closed. -/
def brokenStream : TokenStream :=
  let place (n : Nat) : Position := ⟨0, 0, ⟨n, n + 1⟩⟩
  let word (n : Nat) (kind : Kind) (text : String) : Token := ⟨kind, text, place n⟩
  let sign (n : Nat) (p : Punctuator) : Token := ⟨.punct p, p.spelling, place n⟩
  ⟨[word 0 .invalid "unrecognized character '@'", word 2 .intKeyword "int", word 6 .identifier "f",
    sign 7 .openParen, sign 8 .closeParen, sign 10 .openBrace, word 12 .returnKeyword "return",
    word 19 .invalid "unrecognized character '$'", sign 21 .semicolon, sign 23 .openBrace,
    word 25 .intKeyword "int"], place 28⟩

/-- Every statement is broken and nothing is closed, and reading comes to the end all the same. -/
theorem brokenStream_pulled_whole :
    let last := (functions (start brokenStream)).2
    last.lookahead = .endOfFile ⟨0, 0, ⟨28, 29⟩⟩ ∧ last.pulled = 12 ∧
      (parse brokenStream).problems.filter (·.kind == .lexical) =
        [.lexical "unrecognized character '@'" ⟨0, 0, ⟨0, 1⟩⟩,
          .lexical "unrecognized character '$'" ⟨0, 0, ⟨19, 20⟩⟩] := by
  intro last
  obtain ⟨-, hend, hpulled, -, hproblems⟩ := parse_pulls_whole_stream.1 brokenStream (by decide)
  exact ⟨hend, hpulled, hproblems⟩

end SmallC.Grammar
