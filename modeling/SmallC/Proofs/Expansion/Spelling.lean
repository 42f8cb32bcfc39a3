import Mathlib
import SmallC.Proofs.Expansion.Ending

/-!
# Reading back tokens that are written down

A text of tokens with a space between any two is read as these tokens. `Spelled` says which texts are one
token, and of which kind: in front of a space such a text is scanned whole, since no token goes over a space,
and it is never taken for a gap. Without definitions and directives the preprocessor hands on what is scanned.
-/
namespace SmallC

namespace Scan

variable {s : String} {k k' : Kind} {c : Char} {cs rest : List Char}

/-- The text is one token of the kind, other than the sign of a directive. -/
inductive Spelled : String → Kind → Prop where
  | word {c : Char} {cs : List Char} (hc : Text.isWordStart c = true)
      (hcs : ∀ d ∈ cs, Text.isWordPart d = true) :
      Spelled (String.ofList (c :: cs)) (.ofWord (String.ofList (c :: cs)))
  | number {c : Char} {cs : List Char} (hc : c.isDigit = true) (hcs : ∀ d ∈ cs, d.isDigit = true) :
      Spelled (String.ofList (c :: cs)) .number
  | sign {p : Punctuator} (hp : p ≠ .hash) : Spelled p.spelling (.punct p)

/-- The text is over, or a space comes next. -/
def AtSpace (rest : List Char) : Prop :=
  ∀ c ∈ rest.head?, c = ' '

/-- What does not start with white space or with a comment has no gap in front. -/
theorem piece?_eq_none (hspace : Text.isSpace c = false)
    (hslash : c = '/' → ∀ d ∈ cs.head?, d ≠ '/' ∧ d ≠ '*') : piece? (c :: cs) = none := by
  unfold piece?
  split
  · next heq =>
    obtain ⟨rfl, rfl⟩ := List.cons.inj heq
    exact absurd rfl (hslash rfl '/' rfl).1
  · next heq =>
    obtain ⟨rfl, rfl⟩ := List.cons.inj heq
    exact absurd rfl (hslash rfl '*' rfl).2
  · next heq =>
    obtain ⟨rfl, rfl⟩ := List.cons.inj heq
    exact if_neg (by simp [hspace])
  · rfl

theorem isSpace_eq_false (h : piece? (c :: cs) = none) : Text.isSpace c = false := by
  by_contra hspace
  rw [Bool.not_eq_false] at hspace
  have hslash : c ≠ '/' := by
    rintro rfl
    exact absurd hspace (by decide)
  unfold piece? at h
  split at h
  · next heq => exact hslash (List.cons.inj heq).1
  · next heq => exact hslash (List.cons.inj heq).1
  · next heq =>
    obtain ⟨rfl, rfl⟩ := List.cons.inj heq
    rw [if_pos hspace] at h
    exact nomatch h
  · next heq => exact nomatch heq

theorem gap_of_none (h : piece? cs = none) : gap cs = ([], cs) := by
  rw [gap]
  split
  · rfl
  · next hsome =>
    rw [h] at hsome
    exact nomatch hsome

/-- A single space is a gap by itself. -/
theorem gap_space (h : piece? cs = none) : gap (' ' :: cs) = ([' '], cs) := by
  have hstop : cs.takeWhile Text.isSpace = [] ∧ cs.dropWhile Text.isSpace = cs := by
    cases cs with
    | nil => exact ⟨rfl, rfl⟩
    | cons c cs => simp [isSpace_eq_false h]
  have hpiece : piece? (' ' :: cs) = some ([' '], cs) := by
    show some (' ' :: cs.takeWhile Text.isSpace, cs.dropWhile Text.isSpace) = _
    rw [hstop.1, hstop.2]
  rw [gap]
  split
  · next hnone =>
    rw [hpiece] at hnone
    exact nomatch hnone
  · next hsome =>
    rw [hpiece] at hsome
    cases hsome
    rw [gap_of_none h]
    rfl

/-- What a word or a number starts with opens no gap. -/
theorem piece?_of_isWordPart (h : Text.isWordPart c = true) : piece? (c :: cs) = none := by
  have hspace : Text.isSpace c = false := by
    by_contra hspace
    rw [Bool.not_eq_false] at hspace
    rw [Text.isWordPart_of_isSpace hspace] at h
    exact Bool.false_ne_true h
  refine piece?_eq_none hspace ?_
  rintro rfl
  exact absurd h (by decide)

theorem isWordPart_of_isDigit (h : c.isDigit = true) : Text.isWordPart c = true := by
  simp only [Text.isWordPart, Char.isAlphanum, Bool.or_eq_true]
  exact .inl (.inr h)

theorem isWordStart_of_isDigit (h : c.isDigit = true) : Text.isWordStart c = false := by
  have hunderscore : c ≠ '_' := by
    rintro rfl
    exact absurd h (by decide)
  simp only [Char.isDigit, Bool.and_eq_true, decide_eq_true_eq, UInt32.le_iff_toNat_le] at h
  simp only [Text.isWordStart, Char.isAlpha, Char.isUpper, Char.isLower, Bool.or_eq_false_iff,
    Bool.and_eq_false_iff, decide_eq_false_iff_not, UInt32.le_iff_toNat_le, beq_eq_false_iff_ne]
  obtain ⟨-, hle⟩ := h
  have hle : c.val.toNat ≤ 57 := hle
  refine ⟨⟨?_, .inl ?_⟩, hunderscore⟩
  · rintro ⟨hupper, -⟩
    have hupper : 65 ≤ c.val.toNat := hupper
    omega
  · intro hlower
    have hlower : 97 ≤ c.val.toNat := hlower
    omega

theorem AtSpace.stops {p : Char → Bool} (h : AtSpace rest) (hp : p ' ' = false) :
    rest.takeWhile p = [] ∧ rest.dropWhile p = rest := by
  cases rest with
  | nil => exact ⟨rfl, rfl⟩
  | cons d rest =>
    rw [h d rfl]
    simp [hp]

theorem token?_of_not_word (hword : Text.isWordStart c = false)
    (hslash : c = '/' → ∀ d ∈ cs.head?, d ≠ '/' ∧ d ≠ '*') :
    token? (c :: cs) =
      if c.isDigit then some (.number, c :: cs.takeWhile Char.isDigit, cs.dropWhile Char.isDigit)
      else (Punctuator.longest? (c :: cs)).map fun p =>
        (.punct p, p.spelling.toList, (c :: cs).drop p.spelling.toList.length) := by
  have hnone : Text.word? (c :: cs) = none := if_neg (by simp [hword])
  unfold token?
  rw [hnone]
  dsimp only
  split
  · next heq => exact nomatch heq
  · next heq =>
    obtain ⟨rfl, rfl⟩ := List.cons.inj heq
    exact absurd rfl (hslash rfl '*' rfl).2
  · next heq =>
    obtain ⟨rfl, rfl⟩ := List.cons.inj heq
    rfl

theorem token?_word (hc : Text.isWordStart c = true) (hcs : ∀ d ∈ cs, Text.isWordPart d = true)
    (hrest : AtSpace rest) :
    token? (c :: cs ++ rest) = some (.ofWord (String.ofList (c :: cs)), c :: cs, rest) := by
  have hword : Text.word? (c :: cs ++ rest) = some (c :: cs, rest) := by
    refine Text.word?_append hc hcs fun d hd => ?_
    rw [hrest d hd]
    decide
  unfold token?
  rw [hword]

theorem token?_number (hc : c.isDigit = true) (hcs : ∀ d ∈ cs, d.isDigit = true)
    (hrest : AtSpace rest) : token? (c :: cs ++ rest) = some (.number, c :: cs, rest) := by
  obtain ⟨htake, hdrop⟩ := hrest.stops (p := Char.isDigit) (by decide)
  have hslash : c = '/' → ∀ d ∈ (cs ++ rest).head?, d ≠ '/' ∧ d ≠ '*' := by
    rintro rfl
    exact absurd hc (by decide)
  rw [List.cons_append, token?_of_not_word (isWordStart_of_isDigit hc) hslash, if_pos hc,
    List.takeWhile_append_of_pos hcs, List.dropWhile_append_of_pos hcs, htake, hdrop, List.append_nil]

/-- No punctuator goes over a space, so what comes behind one does not make a longer one of it. -/
theorem isPrefixOf_spelling (p q : Punctuator) (hrest : AtSpace rest) :
    q.spelling.toList.isPrefixOf (p.spelling.toList ++ rest) =
      q.spelling.toList.isPrefixOf p.spelling.toList := by
  have hspace : ' ' ∉ q.spelling.toList := by cases q <;> decide
  rw [Bool.eq_iff_iff, List.isPrefixOf_iff_prefix, List.isPrefixOf_iff_prefix]
  constructor
  · intro h
    rcases List.prefix_or_prefix_of_prefix h (List.prefix_append ..) with h | ⟨more, hmore⟩
    · exact h
    · cases more with
      | nil =>
        rw [List.append_nil] at hmore
        exact hmore ▸ List.prefix_rfl
      | cons d more =>
        -- a longer punctuator would go on with the space
        rw [← hmore, List.prefix_append_right_inj] at h
        obtain ⟨_, rfl⟩ := h
        rw [← hmore, hrest d rfl] at hspace
        exact absurd (List.mem_append_right _ List.mem_cons_self) hspace
  · intro h
    exact h.trans (List.prefix_append ..)

theorem longest?_spelling (p : Punctuator) (hrest : AtSpace rest) :
    Punctuator.longest? (p.spelling.toList ++ rest) = some p := by
  have hown : Punctuator.longest? p.spelling.toList = some p := by cases p <;> rfl
  simp only [Punctuator.longest?, isPrefixOf_spelling p _ hrest]
  exact hown

theorem spelling_cases (p : Punctuator) :
    ∃ c cs, p.spelling.toList = c :: cs ∧
      (Text.isWordStart c || c.isDigit || Text.isSpace c) = false ∧
      (c = '/' → cs = [] ∨ cs.head? = some '=') := by
  cases p <;> exact ⟨_, _, rfl, rfl, by decide⟩

/-- In front of a space the token is scanned whole, and it is no gap. -/
theorem Spelled.scanned (h : Spelled s k) (hrest : AtSpace rest) :
    token? (s.toList ++ rest) = some (k, s.toList, rest) ∧ piece? (s.toList ++ rest) = none := by
  cases h with
  | word hc hcs =>
    rw [String.toList_ofList]
    exact ⟨token?_word hc hcs hrest, piece?_of_isWordPart (Text.isWordPart_of_isWordStart hc)⟩
  | number hc hcs =>
    rw [String.toList_ofList]
    exact ⟨token?_number hc hcs hrest, piece?_of_isWordPart (isWordPart_of_isDigit hc)⟩
  | @sign p hp =>
    obtain ⟨c, cs, hspelling, hopen, hslash⟩ := spelling_cases p
    simp only [Bool.or_eq_false_iff] at hopen
    obtain ⟨⟨hword, hdigit⟩, hspace⟩ := hopen
    have hbehind : c = '/' → ∀ d ∈ (cs ++ rest).head?, d ≠ '/' ∧ d ≠ '*' := by
      intro hc d hd
      rcases hslash hc with rfl | hequal
      · rw [hrest d hd]
        decide
      · rw [List.head?_append, hequal] at hd
        rw [← Option.some.inj hd]
        decide
    have hlongest := longest?_spelling p hrest
    rw [hspelling] at hlongest ⊢
    rw [List.cons_append] at hlongest ⊢
    refine ⟨?_, piece?_eq_none hspace hbehind⟩
    rw [token?_of_not_word hword hbehind, hdigit, hlongest, Option.map_some, hspelling]
    simp

theorem Spelled.kind_unique (h : Spelled s k) (h' : Spelled s k') : k = k' := by
  have hend : AtSpace [] := fun _ hc => nomatch hc
  have hsame := (h.scanned hend).1.symm.trans (h'.scanned hend).1
  exact (Prod.mk.inj (Option.some.inj hsame)).1

theorem Spelled.kind_ordinary (h : Spelled s k) :
    k ≠ .punct .hash ∧ k ≠ .invalid ∧ k ≠ .endOfFile := by
  cases h with
  | word =>
    unfold Kind.ofWord
    split
    · decide
    · split <;> decide
  | number => decide
  | sign hp => exact ⟨fun hk => hp (Kind.punct.inj hk), Kind.noConfusion, Kind.noConfusion⟩

theorem item_of_token? {lexeme : List Char} (h : token? cs = some (k, lexeme, rest)) :
    item cs = .token k lexeme rest := by
  unfold item
  split
  · exact nomatch h
  · rw [h]

end Scan

/-- Every text is a token. -/
def AllSpelled (ws : List String) : Prop :=
  ∀ w ∈ ws, ∃ k, Scan.Spelled w k

namespace AllSpelled

variable {ws vs : List String} {w : String} {k : Kind}

theorem nil : AllSpelled [] :=
  fun _ hw => nomatch hw

theorem cons (hw : Scan.Spelled w k) (h : AllSpelled ws) : AllSpelled (w :: ws) :=
  List.forall_mem_cons.2 ⟨⟨k, hw⟩, h⟩

theorem append (h : AllSpelled ws) (h' : AllSpelled vs) : AllSpelled (ws ++ vs) :=
  List.forall_mem_append.2 ⟨h, h'⟩

theorem sign {p : Punctuator} (hp : p ≠ .hash) (h : AllSpelled ws) : AllSpelled (p.spelling :: ws) :=
  .cons (.sign hp) h

end AllSpelled

/-- The tokens, written down, are the texts. -/
structure WrittenAs (ts : List Token) (ws : List String) : Prop where
  lexemes : ts.map Token.lexeme = ws
  spelled : ∀ t ∈ ts, Scan.Spelled t.lexeme t.kind

/-- The texts with a space in front of each. -/
def Text.spaced (ws : List String) : List Char :=
  ws.flatMap fun w => ' ' :: w.toList

theorem Text.toList_intercalate_space (w : String) (ws : List String) :
    (" ".intercalate (w :: ws)).toList = w.toList ++ spaced ws := by
  rw [String.toList_intercalate]
  induction ws generalizing w with
  | nil => simp [spaced]
  | cons v ws ih =>
    have hcons : " ".toList.intercalate ((w :: v :: ws).map String.toList) =
        w.toList ++ ' ' :: " ".toList.intercalate ((v :: ws).map String.toList) := by
      simp [List.intercalate]
    rw [hcons, ih v]
    rfl

theorem Scan.atSpace_spaced (ws : List String) : AtSpace (Text.spaced ws) := by
  cases ws with
  | nil => exact fun _ hc => nomatch hc
  | cons w ws => exact fun _ hc => (Option.some.inj hc).symm

namespace Preprocessor

open Scan

variable {p : Preprocessor} {w : String} {k : Kind} {rest : List Char} {ws : List String}

/-- A token in front of a space is handed on, unless there are definitions. -/
theorem step_spelled (hw : Spelled w k) (hrest : AtSpace rest)
    (hdefinitions : ∀ name, p.definitions.get? name = none)
    (hp : p.active.rest = w.toList ++ rest ∨ p.active.rest = ' ' :: (w.toList ++ rest)) :
    ∃ pos g, p.step = .token ⟨k, w, pos⟩ { p with active := g } ∧ g.rest = rest := by
  obtain ⟨htoken, hpiece⟩ := hw.scanned hrest
  have hgap : (gap p.active.rest).2 = w.toList ++ rest := by
    rcases hp with hp | hp
    · rw [hp, gap_of_none hpiece]
    · rw [hp, gap_space hpiece]
  have hnext : ∃ pos g, p.active.piece? = some (.token ⟨k, w, pos⟩, g) ∧ g.rest = rest := by
    unfold Frame.piece?
    dsimp only
    rw [hgap, item_of_token? htoken]
    dsimp only
    rw [if_pos hw.kind_ordinary.1, String.ofList_toList]
    exact ⟨_, _, rfl, rfl⟩
  obtain ⟨pos, g, hnext, hg⟩ := hnext
  refine ⟨pos, g, ?_, hg⟩
  rw [step_of_token hnext, hdefinitions]
  simp

/-- A run hands on the texts as its tokens and changes no definition. -/
structure HandsOn (p : Preprocessor) (ws : List String) : Prop where
  written : WrittenAs p.run.1.tokens ws
  definitions : p.run.2.definitions = p.definitions

/-- A token that is handed on, before a run over the others. -/
theorem handsOn_cons (hw : Spelled w k) (hdefinitions : ∀ name, p.definitions.get? name = none)
    (hp : p.active.rest = w.toList ++ Text.spaced ws ∨ p.active.rest = ' ' :: (w.toList ++ Text.spaced ws))
    (hrun : ∀ g : Frame, g.rest = Text.spaced ws → HandsOn { p with active := g } ws) :
    p.HandsOn (w :: ws) := by
  obtain ⟨pos, g, hstep, hg⟩ := step_spelled hw (atSpace_spaced ws) hdefinitions hp
  obtain ⟨⟨hlexemes, hspelled⟩, hsame⟩ := hrun g hg
  refine ⟨?_, ?_⟩
  · rw [run_eq, hstep]
    exact ⟨congrArg (List.cons w) hlexemes, List.forall_mem_cons.2 ⟨hw, hspelled⟩⟩
  · rw [run_eq, hstep]
    exact hsame

theorem handsOn_spaced (hws : AllSpelled ws)
    (hdefinitions : ∀ name, p.definitions.get? name = none) (hsuspended : p.suspended = [])
    (hp : p.active.rest = Text.spaced ws) : p.HandsOn ws := by
  induction ws generalizing p with
  | nil =>
    have hstep := step_of_none (Frame.piece?_of_rest hp)
    rw [leave, hsuspended] at hstep
    refine ⟨?_, ?_⟩
    · rw [run_eq, hstep]
      exact ⟨rfl, fun _ ht => absurd ht List.not_mem_nil⟩
    · rw [run_eq, hstep]
  | cons w ws ih =>
    obtain ⟨⟨k, hw⟩, hws⟩ := List.forall_mem_cons.1 hws
    exact handsOn_cons hw hdefinitions (.inr hp) fun g hg =>
      ih (p := { p with active := g }) hws hdefinitions hsuspended hg

/-- Tokens with a space between any two are read back. -/
theorem handsOn_intercalate (hws : AllSpelled ws)
    (hdefinitions : ∀ name, p.definitions.get? name = none) (hsuspended : p.suspended = [])
    (hp : p.active.rest = (" ".intercalate ws).toList) : p.HandsOn ws := by
  cases ws with
  | nil => exact handsOn_spaced hws hdefinitions hsuspended hp
  | cons w ws =>
    obtain ⟨⟨k, hw⟩, hws⟩ := List.forall_mem_cons.1 hws
    rw [Text.toList_intercalate_space] at hp
    exact handsOn_cons hw hdefinitions (.inl hp) fun g hg =>
      handsOn_spaced (p := { p with active := g }) hws hdefinitions hsuspended hg

theorem run_intercalate (hws : AllSpelled ws)
    (hdefinitions : ∀ name, p.definitions.get? name = none) (hsuspended : p.suspended = [])
    (hp : p.active.rest = (" ".intercalate ws).toList) : WrittenAs p.run.1.tokens ws :=
  (handsOn_intercalate hws hdefinitions hsuspended hp).written

end Preprocessor

end SmallC
