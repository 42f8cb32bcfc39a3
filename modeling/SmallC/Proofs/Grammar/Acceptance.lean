import Mathlib
import SmallC.Proofs.Grammar.Completeness

/-!
# Acceptance

A stream without invalid tokens is read without a problem exactly if the grammar derives a unit from
it, and then as this unit. So the grammar derives at most one unit from a stream. Positions take part
in this, but the trees are also compared without them, as trees that all stand at one place.
-/
namespace SmallC

/-- A place for what has none. -/
def Position.origin : Position :=
  ⟨0, 0, ⟨0, 0⟩⟩

namespace Expr

/-- The expression without its positions. -/
def erase : Expr → Expr
  | number digits _ => number digits .origin
  | var name _ => var name .origin
  | unary op operand _ => unary op operand.erase .origin
  | binary op left right _ => binary op left.erase right.erase .origin
  | assign op target value _ => assign op target.erase value.erase .origin

end Expr

def TypeName.erase (type : TypeName) : TypeName :=
  ⟨type.name, .origin⟩

namespace Stmt

mutual

/-- The statement without its positions. -/
def erase : Stmt → Stmt
  | block body _ => block (eraseAll body) .origin
  | returns value _ => returns value.erase .origin
  | expr value _ => expr value.erase .origin
  | declare type name init _ => declare type.erase name (init.map Expr.erase) .origin

def eraseAll : List Stmt → List Stmt
  | [] => []
  | s :: ss => s.erase :: eraseAll ss

end

end Stmt

def Param.erase (p : Param) : Param :=
  ⟨p.type.erase, p.name, .origin⟩

def Function.erase (f : Function) : Function :=
  ⟨f.returnType.erase, f.name, f.params.map Param.erase, ⟨Stmt.eraseAll f.body.body, .origin⟩, .origin⟩

/-- The unit without its positions. -/
def TranslationUnit.erase (u : TranslationUnit) : TranslationUnit :=
  ⟨u.functions.map Function.erase⟩

namespace Grammar

open Reader

theorem after_start {s : TokenStream}
    (h : ∀ t ∈ s.tokens, t.kind ≠ .invalid ∧ t.kind ≠ .endOfFile) :
    (start s).rest = s.tokens ∧ (start s).remarks = [] :=
  settle_rest (r := { rest := s.tokens, ending := s.ending }) h

theorem parse_unit {s : TokenStream} (h : (parse s).hasFault = false) :
    ¬ (functions (start s)).2.Faulty ∧ (parse s).unit = ⟨(functions (start s)).1⟩ := by
  rcases hread : functions (start s) with ⟨fs, last⟩
  by_cases hany : last.remarks.any Remark.isFault = true
  · simp [parse, hread, hany, Parse.hasFault] at h
  · exact ⟨fun hfaulty => hany (List.any_eq_true.2 hfaulty), by simp [parse, hread, hany]⟩

theorem parse_eq_iff_derives {s : TokenStream}
    (h : ∀ t ∈ s.tokens, t.kind ≠ .invalid ∧ t.kind ≠ .endOfFile) (U : TranslationUnit) :
    (parse s).problems = [] ∧ (parse s).unit = U ↔ DerivesUnit s.tokens U.functions := by
  obtain ⟨hrest, hremarks⟩ := after_start h
  have hc : (start s).Clean := by
    intro t ht
    rw [hrest] at ht
    exact h t ht
  rw [← hasFault_eq_false_iff]
  constructor
  · rintro ⟨hfault, rfl⟩
    obtain ⟨hok, hunit⟩ := parse_unit hfault
    rw [hunit, ← hrest]
    exact sound_functions hc hok
  · intro hd
    obtain ⟨last, hlast, heq⟩ := hd.functions_eq hc hrest
    have hnone : last.remarks = [] := hlast.remarks.trans hremarks
    simp [parse, Parse.hasFault, heq, hnone]

/-- Reading accepts the language of the grammar and makes the tree of the one derivation there is. -/
theorem accepts_iff_derives (s : TokenStream)
    (h : ∀ t ∈ s.tokens, t.kind ≠ .invalid ∧ t.kind ≠ .endOfFile) :
    (∀ U : TranslationUnit, (parse s).problems = [] ∧ (parse s).unit = U ↔
      DerivesUnit s.tokens U.functions) ∧
    (∀ U : TranslationUnit, (parse s).problems = [] ∧ (parse s).unit.erase = U.erase ↔
      ∃ V : TranslationUnit, DerivesUnit s.tokens V.functions ∧ V.erase = U.erase) ∧
    ∀ V W : TranslationUnit, DerivesUnit s.tokens V.functions → DerivesUnit s.tokens W.functions →
      V = W := by
  refine ⟨parse_eq_iff_derives h, fun U => ⟨?_, ?_⟩, fun V W hV hW => ?_⟩
  · rintro ⟨hnone, herase⟩
    exact ⟨(parse s).unit, (parse_eq_iff_derives h _).1 ⟨hnone, rfl⟩, herase⟩
  · rintro ⟨V, hV, herase⟩
    obtain ⟨hnone, rfl⟩ := (parse_eq_iff_derives h V).2 hV
    exact ⟨hnone, herase⟩
  · obtain ⟨-, rfl⟩ := (parse_eq_iff_derives h V).2 hV
    exact ((parse_eq_iff_derives h W).2 hW).2

/-- The tokens of `int f() { x = -a - b * 2, c; }`, all at one place. -/
def mixedOperators : TokenStream :=
  let word (kind : Kind) (text : String) : Token := ⟨kind, text, .origin⟩
  let sign (p : Punctuator) : Token := ⟨.punct p, p.spelling, .origin⟩
  ⟨[word .intKeyword "int", word .identifier "f", sign .openParen, sign .closeParen, sign .openBrace,
    word .identifier "x", sign .assign, sign .minus, word .identifier "a", sign .minus,
    word .identifier "b", sign .star, word .number "2", sign .comma, word .identifier "c",
    sign .semicolon, sign .closeBrace], .origin⟩

theorem mixedOperators_derives :
    (∀ t ∈ mixedOperators.tokens, t.kind ≠ .invalid ∧ t.kind ≠ .endOfFile) ∧
    DerivesUnit mixedOperators.tokens
      [⟨⟨"int", .origin⟩, "f", [],
        ⟨[.expr (.binary .comma
            (.assign .plain (.var "x" .origin)
              (.binary (.arith .sub) (.unary .neg (.var "a" .origin) .origin)
                (.binary (.arith .mul) (.var "b" .origin) (.number "2" .origin) .origin) .origin)
              .origin)
            (.var "c" .origin) .origin) .origin], .origin⟩, .origin⟩] := by
  have hclean : ∀ t ∈ mixedOperators.tokens, t.kind ≠ .invalid ∧ t.kind ≠ .endOfFile := by decide
  exact ⟨hclean, ((accepts_iff_derives mixedOperators hclean).1 ⟨_⟩).1 ⟨by cbv, by cbv⟩⟩

end Grammar

end SmallC
