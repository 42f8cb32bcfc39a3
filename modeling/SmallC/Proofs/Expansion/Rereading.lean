import SmallC.Proofs.Expansion.Exactness
import SmallC.Proofs.Expansion.Spelling

/-!
# Reading again what was handed on

Wherever a token comes from, a file or a replacement, it is spelled like a token of its kind and is no sign of
a directive. So the tokens of a run can be written down with spaces between them and read again. What joined
or kept apart two of them at first is gone by then: the space keeps them apart.
-/
namespace SmallC

namespace Scan

variable {cs lexeme rest : List Char} {k : Kind}

theorem spelled_of_word? {word : List Char} (h : Text.word? cs = some (word, rest)) :
    Spelled (String.ofList word) (.ofWord (String.ofList word)) := by
  unfold Text.word? at h
  split at h
  · cases h
  · split at h
    · next hc =>
      obtain ⟨rfl, -⟩ := Prod.mk.inj (Option.some.inj h)
      exact .word hc fun d hd => List.mem_takeWhile_imp hd
    · cases h

/-- What is scanned as a token is spelled like one. -/
theorem spelled_of_token? (h : token? cs = some (k, lexeme, rest)) (hk : k ≠ .punct .hash) :
    Spelled (String.ofList lexeme) k := by
  unfold token? at h
  split at h
  · next hw =>
    cases h
    exact spelled_of_word? hw
  · split at h
    · cases h
    · cases h
    · split at h
      · next hdigit =>
        cases h
        exact .number hdigit fun d hd => List.mem_takeWhile_imp hd
      · obtain ⟨p, -, hp⟩ := Option.map_eq_some_iff.1 h
        cases hp
        rw [String.ofList_toList]
        exact .sign fun heq => hk (congrArg Kind.punct heq)

theorem spelled_of_item (h : item cs = .token k lexeme rest) (hk : k ≠ .punct .hash) :
    Spelled (String.ofList lexeme) k := by
  unfold item at h
  split at h
  · cases h
  · split at h
    · next ht =>
      cases h
      exact spelled_of_token? ht hk
    · cases h

end Scan

namespace Preprocessor

open Scan

variable {p q : Preprocessor} {t : Token}

theorem Shows.spelled {spanned : String} (h : p.Shows t spanned) (hvalid : t.kind ≠ .invalid)
    (hend : t.kind ≠ .endOfFile) : Spelled t.lexeme t.kind := by
  cases h with
  | plain scanned sign same whole =>
    rw [same, whole]
    exact spelled_of_item scanned sign
  | character _ bad | directive _ _ _ bad | stray _ _ bad | tooDeep _ _ bad => exact absurd bad hvalid
  | ending _ _ mark => exact absurd mark hend

theorem spelled_of_step (h : p.step = .token t q) (hvalid : t.kind ≠ .invalid) :
    Spelled t.lexeme t.kind := by
  have hitem := p.step_showsItem
  rw [h] at hitem
  obtain ⟨spanned, rest, -, -, hshows⟩ := hitem
  exact hshows.spelled hvalid (kind_of_step_token h)

/-- Every token of a run that is no complaint is spelled like one. -/
theorem run_spelled (p : Preprocessor) :
    ∀ t ∈ p.run.1.tokens, t.kind ≠ .invalid → Spelled t.lexeme t.kind := by
  induction p using step_induction with
  | token p t q hs ih =>
    rw [run_eq, hs]
    exact List.forall_mem_cons.2 ⟨spelled_of_step hs, ih⟩
  | silent p q hs ih =>
    rw [run_eq, hs]
    exact ih
  | finish p t q hs =>
    rw [run_eq, hs]
    exact fun _ hu => nomatch hu

/-- Tokens that are written alike are of the same kinds. -/
theorem spellings_eq {ts us : List Token} (hts : ∀ t ∈ ts, Spelled t.lexeme t.kind)
    (hus : WrittenAs us (ts.map Token.lexeme)) :
    us.map (fun t => (t.kind, t.lexeme)) = ts.map fun t => (t.kind, t.lexeme) := by
  induction ts generalizing us with
  | nil => rw [List.map_eq_nil_iff.1 hus.lexemes]
  | cons t ts ih =>
    obtain ⟨u, us, rfl, hlexeme, hlexemes⟩ := List.map_eq_cons_iff.1 hus.lexemes
    obtain ⟨ht, hts⟩ := List.forall_mem_cons.1 hts
    obtain ⟨hu, hus⟩ := List.forall_mem_cons.1 hus.spelled
    rw [hlexeme] at hu
    rw [List.map_cons, List.map_cons, ih hts ⟨hlexemes, hus⟩, hlexeme, hu.kind_unique ht]

theorem start_definitions {settings : Settings} (h : settings.defines = [])
    (load : Path → Option String) (files : List SourceFile) (path : Path) (text : String) :
    (start load settings files path text).definitions = {} := by
  unfold start
  rw [h]
  rfl

/-- If a run from whatever state complains of nothing, its tokens with a space between any two are read again
as the same tokens, also without complaint, and nothing is defined on the way. -/
theorem tokens_read_again (p : Preprocessor) (h : ∀ t ∈ p.run.1.toList, t.kind ≠ .invalid)
    (load : Path → Option String) (settings : Settings) (hdefines : settings.defines = [])
    (files : List SourceFile) (path : Path) :
    let text := " ".intercalate (p.run.1.tokens.map Token.lexeme)
    let again := (start load settings files path text).run
    again.1.toList.map (fun t => (t.kind, t.lexeme)) = p.run.1.toList.map (fun t => (t.kind, t.lexeme)) ∧
      (∀ t ∈ again.1.toList, t.kind ≠ .invalid) ∧ again.2.definitions.isEmpty = true := by
  intro text again
  have hspelled : ∀ t ∈ p.run.1.tokens, Spelled t.lexeme t.kind :=
    fun t ht => p.run_spelled t ht (h t (List.mem_append_left _ ht))
  have hall : AllSpelled (p.run.1.tokens.map Token.lexeme) := by
    intro w hw
    obtain ⟨t, ht, rfl⟩ := List.mem_map.1 hw
    exact ⟨t.kind, hspelled t ht⟩
  have hempty := start_definitions hdefines load files path text
  have hrest : (start load settings files path text).active.rest = text.toList := by
    rw [start_active]
    rfl
  obtain ⟨hwritten, hdefinitions⟩ := handsOn_intercalate hall (fun name => by rw [hempty]; rfl)
    (start_suspended load settings files path text) hrest
  refine ⟨?_, ?_, ?_⟩
  · rw [TokenStream.toList, TokenStream.toList, List.map_append, List.map_append,
      spellings_eq hspelled hwritten]
    rfl
  · intro t ht
    rcases List.mem_append.1 ht with ht | ht
    · exact (hwritten.spelled t ht).kind_ordinary.2.1
    · rw [List.mem_singleton.1 ht]
      exact Kind.noConfusion
  · rw [hdefinitions, hempty]
    rfl

/-- Signs that would be others without the space: from replacements, around a comment and at the end of an
included file. -/
def neighbours : Preprocessor :=
  start (fun _ => some "x/") {} [] ⟨"a.c"⟩
    "#define P +\n#define D int\nP+ =/**/= D 1 Dx <\n#include \"h\"\n* y"

set_option maxRecDepth 100000 in
theorem neighbours_read_again :
    let text := "+ + = = int 1 Dx < x / * y"
    let again := (start (fun _ => none) {} [] ⟨"b.c"⟩ text).run
    " ".intercalate (neighbours.run.1.tokens.map Token.lexeme) = text ∧
      again.1.toList.map (fun t => (t.kind, t.lexeme)) =
        neighbours.run.1.toList.map (fun t => (t.kind, t.lexeme)) ∧
      again.2.definitions.isEmpty = true := by
  intro text again
  have hclean : neighbours.run.1.toList.all (·.kind != .invalid) = true := by cbv
  have htext : " ".intercalate (neighbours.run.1.tokens.map Token.lexeme) = text := by
    unfold text
    cbv
  obtain ⟨hsame, -, hempty⟩ := tokens_read_again neighbours
    (fun t ht => bne_iff_ne.1 (List.all_eq_true.1 hclean t ht)) (fun _ => none) {} rfl [] ⟨"b.c"⟩
  rw [htext] at hsame hempty
  exact ⟨htext, hsame, hempty⟩

end Preprocessor

end SmallC
