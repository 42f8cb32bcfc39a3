import SmallC.Proofs.Expansion.Exactness
import SmallC.Proofs.Grammar.Acceptance
import SmallC.Proofs.Grammar.Consumption
import SmallC.Proofs.Grammar.Nodes
import SmallC.Proofs.Sessions

/-!
# Where positions come from

Every position in the tree of a job and in its problems is that of a token of the job, and so it lies in the
text of a registered buffer. For the tree this is read off the derivation. For the problems it follows from
positions being carried along: moving every position but those of the tokens changes no token, so it changes
no problem either, and no problem can have a position that was moved.
-/
namespace SmallC

theorem Problem.position?_relocate {φ : Position → Position} (p : Problem) :
    (p.relocate φ).position? = p.position?.map φ := by
  cases p <;> rfl

namespace TokenStream

variable {S : TokenStream} {pos : Position}

/-- The positions of all tokens, with that of the end. -/
def positions (S : TokenStream) : List Position :=
  S.toList.map Token.pos

theorem mem_positions : pos ∈ S.positions ↔ ∃ t ∈ S.toList, t.pos = pos :=
  List.mem_map

/-- Moves every position that no token of the stream has. -/
def disturb (S : TokenStream) (pos : Position) : Position :=
  if pos ∈ S.positions then pos else { pos with line := pos.line + 1 }

theorem disturb_eq_self_iff : S.disturb pos = pos ↔ pos ∈ S.positions := by
  unfold disturb
  split
  · next hmem => exact iff_of_true rfl hmem
  · next hmem =>
    refine iff_of_false (fun heq => ?_) hmem
    have hline : pos.line + 1 = pos.line := congrArg Position.line heq
    omega

theorem relocate_disturb (S : TokenStream) : S.relocate S.disturb = S := by
  have htoken : ∀ t ∈ S.toList, t.relocate S.disturb = t := by
    intro t ht
    have hpos : S.disturb t.pos = t.pos := disturb_eq_self_iff.2 (mem_positions.2 ⟨t, ht, rfl⟩)
    rw [Token.relocate, hpos]
  have htokens : S.tokens.map (Token.relocate S.disturb) = S.tokens := by
    refine (List.map_congr_left fun t ht => ?_).trans (List.map_id _)
    exact htoken t (List.mem_append_left _ ht)
  have hending : S.disturb S.ending = S.ending :=
    congrArg Token.pos (htoken (.endOfFile S.ending) List.mem_concat_self)
  rw [relocate, htokens, hending]

/-- What is reported stands at a token. -/
theorem position_mem_positions {p : Problem} (hp : p ∈ S.problems) (hpos : p.position? = some pos) :
    pos ∈ S.positions := by
  -- no token is moved, so what is made of the tokens stays as it was
  have hmap : S.problems.map (Problem.relocate S.disturb) = S.problems := by
    rw [← problems_relocate, relocate_disturb]
  have hfixed : p.relocate S.disturb = p :=
    List.map_inj_left.1 (hmap.trans (List.map_id _).symm) p hp
  have hmoved := p.position?_relocate (φ := S.disturb)
  rw [hfixed, hpos] at hmoved
  exact disturb_eq_self_iff.1 (Option.some.inj hmoved).symm

end TokenStream

namespace Grammar

theorem parse_unit_of_fault {S : TokenStream} (h : (parse S).hasFault = true) :
    (parse S).unit = {} := by
  rw [Parse.hasFault, parse_remarks] at h
  unfold parse
  dsimp only
  rw [if_pos h]

/-- A stream that is read without a fault holds no complaint. -/
theorem tokens_clean_of_parse {S : TokenStream} (hS : ∀ t ∈ S.tokens, t.kind ≠ .endOfFile)
    (h : (parse S).hasFault = false) : ∀ t ∈ S.tokens, t.kind ≠ .invalid ∧ t.kind ≠ .endOfFile := by
  have hcomplaints := lexicalProblems_parse hS
  rw [(hasFault_eq_false_iff S).1 h, List.filter_nil] at hcomplaints
  have hnone := List.filter_eq_nil_iff.1 (List.map_eq_nil_iff.1 hcomplaints.symm)
  refine fun t ht => ⟨fun hinvalid => ?_, hS t ht⟩
  exact hnone t (List.mem_append_left _ ht) (beq_iff_eq.2 hinvalid)

/-- A stream that is read without a fault derives what it is read as. -/
theorem derivesUnit_parse {S : TokenStream} (hS : ∀ t ∈ S.tokens, t.kind ≠ .endOfFile)
    (h : (parse S).hasFault = false) : DerivesUnit S.tokens (parse S).unit.functions :=
  (parse_eq_iff_derives (tokens_clean_of_parse hS h) _).1 ⟨(hasFault_eq_false_iff S).1 h, rfl⟩

/-- The nodes of what a stream is read as stand in its tokens. -/
theorem anchored_parse {S : TokenStream} (hS : ∀ t ∈ S.tokens, t.kind ≠ .endOfFile) :
    ∀ n ∈ (parse S).unit.nodes, Anchored S.tokens n := by
  cases h : (parse S).hasFault with
  | false => exact (derivesUnit_parse hS h).anchored
  | true =>
    rw [parse_unit_of_fault h]
    exact fun _ hn => nomatch hn

end Grammar

/-- Every node of the tree stands where the token stands that it is made around. Every position of a node or of a
problem is that of a token, and lies in the text of a registered buffer. -/
theorem positions_come_from_tokens (style : Style) (load : Path → Option String) (log : Log)
    (job : Job) :
    let c := compile style load log job
    let stream := (job.preprocessor load log.files).run.1
    let unit := (Grammar.parse stream).unit
    (∀ n ∈ unit.nodes, Grammar.Anchored stream.tokens n) ∧
      ∀ pos ∈ unit.nodes.map Node.pos ++ c.problems.filterMap Problem.position?,
        (∃ t ∈ stream.toList, t.pos = pos) ∧
          ∃ file, c.log.files[pos.buffer]? = some file ∧ pos.LiesIn file := by
  intro c stream unit
  have hnodes : ∀ n ∈ unit.nodes, Grammar.Anchored stream.tokens n :=
    Grammar.anchored_parse (job.preprocessor load log.files).run_tokens_kind
  refine ⟨hnodes, fun pos hpos => ?_⟩
  have htoken : ∃ t ∈ stream.toList, t.pos = pos := by
    rcases List.mem_append.1 hpos with hnode | hproblem
    · obtain ⟨n, hn, rfl⟩ := List.mem_map.1 hnode
      obtain ⟨t, ht, heq⟩ := (hnodes n hn).exists_mem
      exact ⟨t, List.mem_append_left _ ht, heq⟩
    · obtain ⟨p, hp, heq⟩ := List.mem_filterMap.1 hproblem
      rw [compile_problems] at hp
      exact TokenStream.mem_positions.1 (TokenStream.position_mem_positions hp heq)
  refine ⟨htoken, ?_⟩
  obtain ⟨t, ht, rfl⟩ := htoken
  have hgrounded := (Preprocessor.runs_start load job.settings log.files job.path job.source).grounded
  rw [compile_files]
  exact hgrounded.run_liesIn t ht

/-- A name without a declaration, on the second line and behind a character of two bytes. -/
def undeclaredName : Job :=
  .ofText "int f() \x7b\n/*é*/ x; \x7d"

set_option maxRecDepth 100000 in
theorem undeclaredName_placed :
    let c := compile .silent (fun _ => none) {} undeclaredName
    let pos : Position := ⟨0, 1, ⟨17, 18⟩⟩
    Grammar.Anchored (undeclaredName.preprocessor (fun _ => none) []).run.1.tokens (.expr (.var "x" pos)) ∧
      c.problems = [.semantic "undefined variable 'x'" pos] ∧
      ∃ file, c.log.files[0]? = some file ∧ pos.LiesIn file := by
  intro c pos
  let start : Position := ⟨0, 0, ⟨0, 3⟩⟩
  have hparse : Grammar.parse (undeclaredName.preprocessor (fun _ => none) []).run.1 =
      ⟨⟨[⟨⟨"int", start⟩, "f", [], ⟨[.expr (.var "x" pos) pos], ⟨0, 0, ⟨8, 9⟩⟩⟩, start⟩]⟩, []⟩ := by
    unfold start pos
    cbv
  have hproblems : c.problems = [.semantic "undefined variable 'x'" pos] := by
    refine (compile_problems ..).trans ?_
    unfold TokenStream.problems
    rw [show ({} : Log).files = [] from rfl, hparse]
    rfl
  have hpos : pos ∈ c.problems.filterMap Problem.position? := by
    rw [hproblems]
    exact List.mem_singleton_self pos
  obtain ⟨hnodes, hplaced⟩ := positions_come_from_tokens .silent (fun _ => none) {} undeclaredName
  refine ⟨hnodes _ ?_, hproblems, (hplaced pos (List.mem_append_right _ hpos)).2⟩
  rw [show ({} : Log).files = [] from rfl, hparse]
  simp [TranslationUnit.nodes, Function.nodes, Block.nodes, Stmt.nodesAll, Stmt.nodes, Expr.nodes]

end SmallC
