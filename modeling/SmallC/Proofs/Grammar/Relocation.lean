import SmallC.Proofs.Grammar.Accord

/-!
# Reading carries positions along

A stream whose positions were moved is read into the same tree with its positions moved, under the same remarks
with theirs moved. A reader and its relocation are twins, and all that they do together leaves the one a
relocation of the other.
-/
namespace SmallC.Grammar

variable {φ : Position → Position}

namespace Reader

def relocate (φ : Position → Position) (r : Reader) : Reader :=
  { r with
    rest := r.rest.map (Token.relocate φ)
    ending := φ r.ending
    remarks := r.remarks.map (Remark.relocate φ) }

theorem settle_relocate (r : Reader) : (r.relocate φ).settle = r.settle.relocate φ := by
  have hbad : (r.relocate φ).rest.takeWhile (·.kind == .invalid) =
      (r.rest.takeWhile (·.kind == .invalid)).map (Token.relocate φ) :=
    List.takeWhile_map
  have hrest : (r.relocate φ).rest.dropWhile (·.kind == .invalid) =
      (r.rest.dropWhile (·.kind == .invalid)).map (Token.relocate φ) :=
    List.dropWhile_map
  unfold settle
  rw [hbad, hrest]
  simp [relocate, Function.comp_def, Remark.relocate, Token.relocate]

theorem lookahead_relocate (r : Reader) : (r.relocate φ).lookahead = r.lookahead.relocate φ := by
  unfold lookahead relocate
  cases r.rest with
  | nil => rfl
  | cons t rest => rfl

theorem advance_relocate (r : Reader) : (r.relocate φ).advance = r.advance.relocate φ := by
  unfold advance
  rw [← settle_relocate, kind, lookahead_relocate]
  unfold relocate
  rw [List.map_tail]
  rfl

theorem note_relocate (r : Reader) (wanted : Expectation) :
    (r.relocate φ).note wanted = (r.note wanted).relocate φ := by
  unfold note
  rw [pos, lookahead_relocate]
  simp [relocate, Remark.relocate, pos, Token.relocate]

theorem beginRecovery_relocate (r : Reader) :
    (r.relocate φ).beginRecovery = r.beginRecovery.relocate φ := by
  simp [beginRecovery, relocate, Remark.relocate]

theorem start_relocate (S : TokenStream) : start (S.relocate φ) = (start S).relocate φ :=
  settle_relocate { rest := S.tokens, ending := S.ending }

/-- Going on with its relocation, a reader leaves it a relocation. -/
theorem Along.relocate {r s s' : Reader} {ms : List Move} (h : Along r (r.relocate φ) ms s s') :
    s' = s.relocate φ := by
  induction h with
  | refl => rfl
  | consume _ _ ih => rw [ih, advance_relocate]
  | mend _ wanted ih => rw [ih, note_relocate, beginRecovery_relocate]

theorem twin_start_relocate (S : TokenStream) : Twin φ (start S) (start (S.relocate φ)) := by
  refine twin_settle ?_ rfl rfl
  exact List.filter_map

end Reader

open Reader

theorem functions_relocate (S : TokenStream) :
    functions (start (S.relocate φ)) =
      ((functions (start S)).1.map (Function.relocate φ), (functions (start S)).2.relocate φ) := by
  have htwin := twin_start_relocate (φ := φ) S
  obtain ⟨htree, ms, halong⟩ := accord_functions htwin
  rw [start_relocate] at htree halong ⊢
  exact Prod.ext htree halong.relocate

namespace Parse

def relocate (φ : Position → Position) (p : Parse) : Parse :=
  ⟨p.unit.relocate φ, p.remarks.map (Remark.relocate φ)⟩

theorem problems_relocate (p : Parse) : (p.relocate φ).problems = p.problems.map (Problem.relocate φ) := by
  unfold problems relocate
  rw [List.filterMap_map, List.map_filterMap]
  exact congrArg (List.filterMap · p.remarks) (funext Remark.problem?_relocate)

theorem hasFault_relocate (p : Parse) : (p.relocate φ).hasFault = p.hasFault := by
  unfold hasFault relocate
  rw [List.any_map]
  exact congrArg p.remarks.any (funext Remark.isFault_relocate)

end Parse

/-- Moving the positions of a stream moves those of what it is read as. -/
theorem parse_relocate (S : TokenStream) : parse (S.relocate φ) = (parse S).relocate φ := by
  have hfault : (functions (start S)).2.remarks.any (Remark.isFault ∘ Remark.relocate φ) =
      (functions (start S)).2.remarks.any Remark.isFault :=
    congrArg _ (funext Remark.isFault_relocate)
  unfold parse
  rw [functions_relocate]
  dsimp only [Reader.relocate]
  rw [List.any_map, hfault]
  split <;> rfl

end SmallC.Grammar
