import SmallC.Proofs.Expansion.Rereading
import SmallC.Proofs.Outline
import SmallC.Proofs.Provenance

/-!
# Outlines are faithful

The names and numbers of a unit that is read are tokens of a run of the preprocessor, so they are spelled like
names and numbers, and its outline gives everything back but where on their lines the nodes stand.
-/
namespace SmallC

namespace Scan.Spelled

variable {s : String} {k : Kind}

theorem isName (h : Spelled s k) (hk : k = .identifier) : Text.isName s = true := by
  cases h with
  | word hc hcs =>
    unfold Kind.ofWord at hk
    split at hk
    · exact nomatch hk
    · next hint =>
      split at hk
      · exact nomatch hk
      · next hreturn =>
        unfold Text.isName
        simp only [String.toList_ofList, bne, hc, hint, hreturn, List.all_eq_true.2 hcs, Bool.not_false,
          Bool.and_true]
  | number => exact nomatch hk
  | sign => exact nomatch hk

theorem isNumber (h : Spelled s k) (hk : k = .number) : Text.isNumber s = true := by
  cases h with
  | word hc hcs =>
    unfold Kind.ofWord at hk
    split at hk
    · exact nomatch hk
    · split at hk <;> exact nomatch hk
  | number hc hcs =>
    unfold Text.isNumber
    rw [String.toList_ofList, Bool.and_eq_true, List.all_eq_true]
    exact ⟨rfl, List.forall_mem_cons.2 ⟨hc, hcs⟩⟩
  | sign => exact nomatch hk

theorem eq_int (h : Spelled s k) (hk : k = .intKeyword) : s = "int" := by
  cases h with
  | word hc hcs =>
    unfold Kind.ofWord at hk
    split at hk
    · next hint => exact beq_iff_eq.1 hint
    · split at hk <;> exact nomatch hk
  | number => exact nomatch hk
  | sign => exact nomatch hk

end Scan.Spelled

namespace Grammar

open Scan (Spelled)

/-- The tokens are spelled like tokens of their kinds. -/
def SpelledOut (ts : List Token) : Prop :=
  ∀ t ∈ ts, Spelled t.lexeme t.kind

theorem spelledOut_cons {t : Token} {ts : List Token} :
    SpelledOut (t :: ts) ↔ Spelled t.lexeme t.kind ∧ SpelledOut ts :=
  List.forall_mem_cons

theorem spelledOut_append {ts us : List Token} : SpelledOut (ts ++ us) ↔ SpelledOut ts ∧ SpelledOut us :=
  List.forall_mem_append

theorem Derives.isWritable {level : Level} {ts : List Token} {e : Expr} (h : Derives level ts e)
    (hts : SpelledOut ts) : e.isWritable = true := by
  induction h with
  | number ht => exact (spelledOut_cons.1 hts).1.isNumber ht
  | name ht => exact (spelledOut_cons.1 hts).1.isName ht
  | group _ _ _ ih => exact ih (spelledOut_append.1 (spelledOut_cons.1 hts).2).1
  | step _ _ _ ih => exact ih (spelledOut_append.1 hts).1
  | plus _ _ ih | sign _ _ _ ih => exact ih (spelledOut_cons.1 hts).2
  | ofPrimary _ ih | ofStepped _ ih | ofUnary _ ih | ofTighter _ _ ih | ofTier _ ih
  | ofAssignment _ ih => exact ih hts
  | chain _ _ _ _ ih ih' | assign _ _ _ _ ih ih' | comma _ _ _ ih ih' =>
    obtain ⟨hts, hus⟩ := spelledOut_append.1 hts
    exact Bool.and_eq_true_iff.2 ⟨ih hts, ih' (spelledOut_cons.1 hus).2⟩

theorem DerivesInitial.isWritable {ts : List Token} {init : Option Expr} (h : DerivesInitial ts init)
    (hts : SpelledOut ts) : init.all Expr.isWritable = true := by
  cases h with
  | absent => rfl
  | given _ h => exact h.isWritable (spelledOut_cons.1 hts).2

mutual

theorem DerivesStmt.isWritable : ∀ {ts : List Token} {s : Stmt}, DerivesStmt ts s → SpelledOut ts →
    s.isWritable = true
  | _, _, .returns _ h _, hts => h.isWritable (spelledOut_append.1 (spelledOut_cons.1 hts).2).1
  | _, _, .expr h _, hts => by
    rw [← List.cons_append] at hts
    exact h.isWritable (spelledOut_append.1 hts).1
  | _, _, .declare hk hn h _, hts => by
    obtain ⟨htype, hts⟩ := spelledOut_cons.1 hts
    obtain ⟨hname, hts⟩ := spelledOut_cons.1 hts
    have hinit := h.isWritable (spelledOut_append.1 hts).1
    rw [Stmt.isWritable, htype.eq_int hk, hname.isName hn, hinit]
    rfl
  | _, _, .block h, hts => h.areWritable hts

theorem DerivesBlock.areWritable : ∀ {ts : List Token} {b : Block}, DerivesBlock ts b → SpelledOut ts →
    Stmt.areWritable b.body = true
  | _, _, .intro _ h _, hts => h.areWritable (spelledOut_append.1 (spelledOut_cons.1 hts).2).1

theorem DerivesStmts.areWritable : ∀ {ts : List Token} {body : List Stmt}, DerivesStmts ts body →
    SpelledOut ts → Stmt.areWritable body = true
  | _, _, .nil, _ => rfl
  | _, _, .cons h h', hts =>
    have ⟨hts, hus⟩ := spelledOut_append.1 hts
    Bool.and_eq_true_iff.2 ⟨h.isWritable hts, h'.areWritable hus⟩

end

theorem DerivesFunction.isWritable {ts : List Token} {f : Function} (h : DerivesFunction ts f)
    (hts : SpelledOut ts) : f.isWritable = true := by
  cases h with
  | intro hk hn _ _ h =>
    obtain ⟨htype, hts⟩ := spelledOut_cons.1 hts
    obtain ⟨hname, hts⟩ := spelledOut_cons.1 hts
    have hbody := h.areWritable (spelledOut_cons.1 (spelledOut_cons.1 hts).2).2
    rw [Function.isWritable, htype.eq_int hk, hname.isName hn, hbody]
    rfl

theorem DerivesUnit.isWritable {ts : List Token} {fs : List Function} (h : DerivesUnit ts fs)
    (hts : SpelledOut ts) : fs.all Function.isWritable = true := by
  induction h with
  | nil => rfl
  | cons h _ ih =>
    obtain ⟨hts, hus⟩ := spelledOut_append.1 hts
    exact Bool.and_eq_true_iff.2 ⟨h.isWritable hts, ih hus⟩

/-- Whatever is read from a run of the preprocessor could be written down again. -/
theorem isWritable_parse (p : Preprocessor) : (parse p.run.1).unit.isWritable = true := by
  cases h : (parse p.run.1).hasFault with
  | true =>
    rw [parse_unit_of_fault h]
    rfl
  | false =>
    have hderives := derivesUnit_parse p.run_tokens_kind h
    have hclean := tokens_clean_of_parse p.run_tokens_kind h
    exact hderives.isWritable fun t ht => p.run_spelled t ht (hclean t ht).1

/-- Two units that are read, from whatever text, have the same outline just if they are the same up to the
buffers and spans of their nodes. -/
theorem print_eq_iff_same_on_lines (p q : Preprocessor) :
    let u := (parse p.run.1).unit
    let v := (parse q.run.1).unit
    u.print = v.print ↔ u.relocate Position.lineOnly = v.relocate Position.lineOnly := by
  intro u v
  constructor
  · exact TranslationUnit.relocate_eq_of_print_eq (isWritable_parse p) (isWritable_parse q)
  · intro h
    rw [← u.print_lineOnly, h, v.print_lineOnly]

end Grammar

end SmallC
