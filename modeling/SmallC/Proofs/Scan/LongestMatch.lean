import SmallC.Proofs.Expansion.Spelling
import SmallC.Proofs.Scan.Patterns

/-!
# Scanning takes the longest match

A scan first skips a gap, and no run of white space and comments that the text starts with is longer than the
gap. What stands behind the gap is then found by the patterns alone: the token whose pattern matches most of
the text, a keyword if it is spelled like one, or else one character that is no token. The only exception is
a comment that is never closed, whose slash would match by itself but is no token.

`MaximalGap` and `Found` say this without the scanning functions. They leave nothing open, so that a step
does with a text what they say and nothing else.
-/
namespace SmallC

open Pattern

namespace Scan

variable {cs w g rest after : List Char} {c : Char} {k k' : Kind}

/-- A piece of a gap in front of `after`. A line comment goes on up to a newline or the end. -/
inductive Blank (after : List Char) : List Char → Prop where
  | space {w : List Char} (h : w ∈ Rule.space.pattern) : Blank after w
  | lineComment {w : List Char} (h : w ∈ Rule.lineComment.pattern)
      (hend : ∀ c ∈ after.head?, c = '\n') : Blank after w
  | blockComment {w : List Char} (h : w ∈ Rule.blockComment.pattern) : Blank after w

/-- White space and comments one after the other, in front of `after`. -/
inductive Blanks (after : List Char) : List Char → Prop where
  | nil : Blanks after []
  | cons {w more : List Char} (h : Blank (more ++ after) w) (h' : Blanks after more) :
      Blanks after (w ++ more)

/-- The text starts with the gap, and with no longer run of white space and comments. -/
structure MaximalGap (cs g rest : List Char) : Prop where
  split : cs = g ++ rest
  blanks : Blanks rest g
  maximal : ∀ g' rest', cs = g' ++ rest' → Blanks rest' g' → g' <+: g

theorem closeComment?_eq_some (h : closeComment? cs = some (w, rest)) :
    ∃ body, w = body ++ ['*', '/'] ∧ Unended (body ++ ['*']) := by
  fun_induction closeComment? cs generalizing w rest with
  | case1 => cases h
  | case2 tail =>
    obtain ⟨rfl, -⟩ := Prod.mk.inj (Option.some.inj h)
    refine ⟨[], rfl, unended_cons.2 ⟨?_, unended_nil⟩⟩
    rintro ⟨-, hhead⟩
    cases hhead
  | case3 c cs hopen ih =>
    obtain ⟨⟨b, r⟩, hr, he⟩ := Option.map_eq_some_iff.1 h
    obtain ⟨rfl, rfl⟩ := Prod.mk.inj he
    obtain ⟨body, rfl, hbody⟩ := ih hr
    refine ⟨c :: body, rfl, unended_cons.2 ⟨?_, hbody⟩⟩
    rintro ⟨hc, hhead⟩
    -- the text would go on with `*/` right here
    cases body with
    | nil => cases hhead
    | cons d body =>
      obtain rfl : d = '/' := Option.some.inj hhead
      exact hopen _ hc (closeComment?_eq hr)

theorem closeComment?_append {body : List Char} (h : Unended (body ++ ['*'])) (rest : List Char) :
    closeComment? (body ++ '*' :: '/' :: rest) = some (body ++ ['*', '/'], rest) := by
  induction body with
  | nil => rfl
  | cons c body ih =>
    obtain ⟨hopen, hbody⟩ := unended_cons.1 h
    rw [List.cons_append, closeComment?.eq_3, ih hbody]
    · rfl
    · intro tail hc htail
      refine hopen ⟨hc, ?_⟩
      cases body with
      | nil => cases htail
      | cons d body => exact congrArg some (List.cons.inj htail).1

theorem closeComment?_eq_none (h : closeComment? cs = none) : Unended cs := by
  fun_induction closeComment? cs with
  | case1 => exact unended_nil
  | case2 => cases h
  | case3 c cs hopen ih =>
    refine unended_cons.2 ⟨?_, ih (Option.map_eq_none_iff.1 h)⟩
    rintro ⟨hc, hhead⟩
    obtain ⟨tail, htail⟩ := List.head?_eq_some_iff.1 hhead
    exact hopen tail hc htail

theorem piece?_of_isSpace (h : Text.isSpace c = true) (cs : List Char) :
    piece? (c :: cs) = some (c :: cs.takeWhile Text.isSpace, cs.dropWhile Text.isSpace) := by
  unfold piece?
  split
  · next heq =>
    obtain ⟨rfl, -⟩ := List.cons.inj heq
    cases h
  · next heq =>
    obtain ⟨rfl, -⟩ := List.cons.inj heq
    cases h
  · next heq =>
    obtain ⟨rfl, rfl⟩ := List.cons.inj heq
    exact if_pos h
  · next heq => cases heq

theorem piece?_of_blockComment (h : w ∈ Rule.blockComment.pattern) (after : List Char) :
    piece? (w ++ after) = some (w, after) := by
  obtain ⟨body, rfl, hbody⟩ := Rule.mem_blockComment.1 h
  rw [List.cons_append, List.cons_append, List.append_assoc]
  show (closeComment? (body ++ '*' :: '/' :: after)).map _ = _
  rw [closeComment?_append hbody]
  rfl

theorem blank_of_piece? (h : piece? cs = some (w, after)) : Blank after w := by
  unfold piece? at h
  split at h
  · next tail =>
    obtain ⟨rfl, rfl⟩ := Prod.mk.inj (Option.some.inj h)
    refine .lineComment (Rule.mem_lineComment.2 ⟨_, rfl, fun hmem => ?_⟩) fun c hc => ?_
    · simpa using List.mem_takeWhile_imp hmem
    · have hstop := List.head?_dropWhile_not (fun d => decide (d ≠ '\n')) tail
      rw [Option.mem_def.1 hc] at hstop
      simpa using hstop
  · obtain ⟨⟨b, r⟩, hr, he⟩ := Option.map_eq_some_iff.1 h
    obtain ⟨rfl, rfl⟩ := Prod.mk.inj he
    obtain ⟨body, rfl, hbody⟩ := closeComment?_eq_some hr
    exact .blockComment (Rule.mem_blockComment.2 ⟨body, rfl, hbody⟩)
  · split at h
    · next c tail _ _ hc =>
      obtain ⟨rfl, rfl⟩ := Prod.mk.inj (Option.some.inj h)
      refine .space (Rule.mem_space.2 ⟨_, _, rfl, List.forall_mem_cons.2 ⟨hc, fun d hd => ?_⟩⟩)
      exact List.mem_takeWhile_imp hd
    · cases h
  · cases h

theorem gap_of_some (h : piece? cs = some (w, rest)) : gap cs = (w ++ (gap rest).1, (gap rest).2) := by
  rw [gap]
  split
  · next hnone =>
    rw [h] at hnone
    cases hnone
  · next hsome =>
    rw [h] at hsome
    cases hsome
    rfl

/-- It does not matter where white space is cut. -/
theorem gap_takeWhile (cs : List Char) :
    gap cs = (cs.takeWhile Text.isSpace ++ (gap (cs.dropWhile Text.isSpace)).1,
      (gap (cs.dropWhile Text.isSpace)).2) := by
  cases cs with
  | nil => rw [List.dropWhile_nil, gap_nil]; rfl
  | cons c cs =>
    by_cases hc : Text.isSpace c = true
    · rw [gap_of_some (piece?_of_isSpace hc cs), List.takeWhile_cons_of_pos hc,
        List.dropWhile_cons_of_pos hc]
    · rw [List.takeWhile_cons_of_neg hc, List.dropWhile_cons_of_neg hc, List.nil_append]

theorem Blank.gap_append (h : Blank after w) :
    gap (w ++ after) = (w ++ (gap after).1, (gap after).2) := by
  cases h with
  | space h =>
    obtain ⟨c, cs, rfl, hspace⟩ := Rule.mem_space.1 h
    rw [gap_takeWhile, List.takeWhile_append_of_pos hspace, List.dropWhile_append_of_pos hspace,
      List.append_assoc]
    conv_rhs => rw [gap_takeWhile]
  | lineComment h hend =>
    obtain ⟨body, rfl, hbody⟩ := Rule.mem_lineComment.1 h
    have hmid : ∀ d ∈ body, decide (d ≠ '\n') = true := by
      intro d hd
      exact decide_eq_true fun heq => hbody (heq ▸ hd)
    have hstop : after.takeWhile (· ≠ '\n') = [] ∧ after.dropWhile (· ≠ '\n') = after := by
      cases after with
      | nil => exact ⟨rfl, rfl⟩
      | cons d after => simp [hend d rfl]
    apply gap_of_some
    show some ('/' :: '/' :: (body ++ after).takeWhile (· ≠ '\n'),
      (body ++ after).dropWhile (· ≠ '\n')) = _
    rw [List.takeWhile_append_of_pos hmid, List.dropWhile_append_of_pos hmid, hstop.1, hstop.2,
      List.append_nil]
  | blockComment h =>
    exact gap_of_some (piece?_of_blockComment h after)

theorem Blanks.gap_append (h : Blanks after g) :
    gap (g ++ after) = (g ++ (gap after).1, (gap after).2) := by
  induction h with
  | nil => rfl
  | @cons w more hblank _ ih =>
    rw [List.append_assoc, hblank.gap_append, ih, List.append_assoc]

theorem blanks_gap (cs : List Char) : Blanks (gap cs).2 (gap cs).1 := by
  fun_induction gap cs with
  | case1 => exact .nil
  | case2 cs piece rest h _ more after hg ih =>
    rw [hg] at ih
    have hrest : rest = more ++ after := by
      rw [gap_eq rest, hg]
    exact .cons (hrest ▸ blank_of_piece? h) ih

theorem maximalGap_gap (cs : List Char) : MaximalGap cs (gap cs).1 (gap cs).2 := by
  refine ⟨gap_eq cs, blanks_gap cs, ?_⟩
  rintro g r rfl hblanks
  rw [hblanks.gap_append]
  exact List.prefix_append g _

theorem MaximalGap.unique {g' rest' : List Char} (h : MaximalGap cs g rest)
    (h' : MaximalGap cs g' rest') : g = g' ∧ rest = rest' := by
  have hle := h'.maximal g rest h.split h.blanks
  have hge := h.maximal g' rest' h'.split h'.blanks
  obtain rfl : g = g' := hle.eq_of_length_le hge.length_le
  exact ⟨rfl, List.append_cancel_left (h.split.symm.trans h'.split)⟩

/-- The text starts with a comment that is never closed. -/
def Unclosed (cs : List Char) : Prop :=
  ∃ body, cs = '/' :: '*' :: body ∧ ¬ ['*', '/'] <:+: body

/-- The lexeme matches the pattern of the kind, no pattern matches more of the text, and what is spelled
like a keyword is that keyword. -/
structure LongestMatch (cs : List Char) (kind : Kind) (lexeme rest : List Char) : Prop where
  split : cs = lexeme ++ rest
  matched : lexeme ∈ kind.pattern
  longest : ∀ (r : Rule) (w : List Char), w ∈ r.pattern → w <+: cs → w.length ≤ lexeme.length
  keyword : ∀ k : Kind, k.isKeyword = true → lexeme ∈ k.pattern → kind = k

/-- What stands at the start of a text that has no gap in front, by the patterns. -/
inductive Found (cs : List Char) : Item → Prop where
  | finish (h : cs = []) : Found cs .finish
  | token {kind : Kind} {lexeme rest : List Char} (h : LongestMatch cs kind lexeme rest)
      (hclosed : ¬ Unclosed cs) : Found cs (.token kind lexeme rest)
  | invalid {c : Char} {rest : List Char} (h : cs = c :: rest)
      (hnone : (∀ (r : Rule) (w : List Char), w ∈ r.pattern → ¬ w <+: cs) ∨ Unclosed cs) :
      Found cs (.invalid c rest)

/-- Tokens are words, numbers and signs. -/
theorem mem_pattern_cases (h : w ∈ k.pattern) :
    (k.isWord = true ∧ ∃ c cs, w = c :: cs ∧ Text.isWordStart c = true ∧
        ∀ d ∈ cs, Text.isWordPart d = true) ∨
      (k = .number ∧ ∃ c cs, w = c :: cs ∧ ∀ d ∈ c :: cs, d.isDigit = true) ∨
      ∃ p, k = .punct p ∧ w = p.spelling.toList := by
  cases k with
  | intKeyword =>
    obtain rfl : w = "int".toList := h
    exact .inl ⟨rfl, _, _, rfl, rfl, List.all_eq_true.1 rfl⟩
  | returnKeyword =>
    obtain rfl : w = "return".toList := h
    exact .inl ⟨rfl, _, _, rfl, rfl, List.all_eq_true.1 rfl⟩
  | identifier => exact .inl ⟨rfl, Kind.mem_identifier.1 h⟩
  | number => exact .inr (.inl ⟨rfl, Kind.mem_number.1 h⟩)
  | punct p => exact .inr (.inr ⟨p, rfl, h⟩)
  | endOfFile => exact absurd h (Language.notMem_zero w)
  | invalid => exact absurd h (Language.notMem_zero w)

/-- Where there is no gap, nothing that is skipped can be matched. -/
theorem exists_kind_of_match {r : Rule} (hnone : piece? cs = none) (h : w ∈ r.pattern) (hw : w <+: cs) :
    ∃ k, r = .token k := by
  obtain ⟨after, rfl⟩ := hw
  cases r with
  | space =>
    obtain ⟨c, tail, rfl, hspace⟩ := Rule.mem_space.1 h
    rw [List.cons_append, piece?_of_isSpace (hspace c List.mem_cons_self)] at hnone
    cases hnone
  | lineComment =>
    obtain ⟨body, rfl, -⟩ := Rule.mem_lineComment.1 h
    cases hnone
  | blockComment =>
    rw [piece?_of_blockComment h] at hnone
    cases hnone
  | token k => exact ⟨k, rfl⟩

theorem spelling_injective {p q : Punctuator} (h : p.spelling.toList = q.spelling.toList) : p = q := by
  have hend : AtSpace [] := fun _ hc => nomatch hc
  have hp := longest?_spelling p hend
  have hq := longest?_spelling q hend
  rw [h] at hp
  exact Option.some.inj (hp.symm.trans hq)

theorem mem_all (p : Punctuator) : p ∈ Punctuator.all := by
  cases p <;> decide

/-- Longer signs are listed first, so that the first one found is the longest. -/
theorem longest?_longest {p q : Punctuator} (h : Punctuator.longest? cs = some p)
    (hq : q.spelling.toList <+: cs) : q.spelling.toList.length ≤ p.spelling.toList.length := by
  have hsorted : Punctuator.all.Pairwise
      fun p q => q.spelling.toList.length ≤ p.spelling.toList.length := by decide
  obtain ⟨-, before, later, hall, hbefore⟩ := List.find?_eq_some_iff_append.1 h
  have hmem := mem_all q
  rw [hall] at hmem hsorted
  rcases List.mem_append.1 hmem with hq' | hq'
  · have hother := hbefore q hq'
    rw [List.isPrefixOf_iff_prefix.2 hq] at hother
    cases hother
  · rcases List.mem_cons.1 hq' with rfl | hq'
    · exact Nat.le_refl _
    · exact List.rel_of_pairwise_cons (List.pairwise_append.1 hsorted).2.1 hq'

theorem length_le_takeWhile {P : Char → Bool} (hP : ∀ d ∈ w, P d = true) (hw : w <+: cs) :
    w.length ≤ (cs.takeWhile P).length := by
  obtain ⟨after, rfl⟩ := hw
  rw [List.takeWhile_append_of_pos hP, List.length_append]
  exact Nat.le_add_right _ _

/-- What sort of token it is can be told from its first character. -/
theorem head_of_mem (h : w ∈ k.pattern) :
    ∃ c cs, w = c :: cs ∧ Text.isWordStart c = k.isWord ∧ c.isDigit = (k == .number) := by
  rcases mem_pattern_cases h with ⟨hk, c, cs, rfl, hc, -⟩ | ⟨rfl, c, cs, rfl, hcs⟩ | ⟨p, rfl, rfl⟩
  · refine ⟨c, cs, rfl, hc.trans hk.symm, ?_⟩
    have hdigit : c.isDigit = false := by
      refine Bool.eq_false_iff.2 fun hdigit => ?_
      rw [isWordStart_of_isDigit hdigit] at hc
      cases hc
    have hnumber : (k == .number) = false := by
      refine beq_eq_false_iff_ne.2 ?_
      rintro rfl
      cases hk
    rw [hdigit, hnumber]
  · have hc := hcs c List.mem_cons_self
    exact ⟨c, cs, rfl, isWordStart_of_isDigit hc, hc⟩
  · obtain ⟨c, cs, hspelling, hopen, -⟩ := spelling_cases p
    simp only [Bool.or_eq_false_iff] at hopen
    exact ⟨c, cs, hspelling, hopen.1.1, hopen.1.2⟩

theorem isWordStart_of_isKeyword (hk : k.isKeyword = true) (h : c :: cs ∈ k.pattern) :
    Text.isWordStart c = true := by
  obtain ⟨d, ds, heq, hd, -⟩ := head_of_mem h
  rw [(List.cons.inj heq).1, hd, Kind.isWord, hk, Bool.true_or]

theorem sign_head {p : Punctuator} (h : p.spelling.toList <+: c :: cs) :
    Text.isWordStart c = false ∧ c.isDigit = false := by
  obtain ⟨d, ds, hspelling, hopen, -⟩ := spelling_cases p
  rw [hspelling, List.cons_prefix_cons] at h
  simp only [Bool.or_eq_false_iff] at hopen
  rw [← h.1]
  exact hopen.1

/-- Whatever can be matched where a word starts is part of the word. -/
theorem isWordPart_of_match {r : Rule} (hnone : piece? (c :: cs) = none)
    (hc : Text.isWordStart c = true) (h : w ∈ r.pattern) (hw : w <+: c :: cs) :
    ∀ d ∈ w, Text.isWordPart d = true := by
  obtain ⟨k, rfl⟩ := exists_kind_of_match hnone h hw
  rcases mem_pattern_cases h with ⟨-, d, ds, rfl, hd, hds⟩ | ⟨-, d, ds, rfl, hds⟩ | ⟨p, -, rfl⟩
  · exact List.forall_mem_cons.2 ⟨Text.isWordPart_of_isWordStart hd, hds⟩
  · exact fun e he => isWordPart_of_isDigit (hds e he)
  · rw [(sign_head hw).1] at hc
    cases hc

theorem isDigit_of_match {r : Rule} (hnone : piece? (c :: cs) = none) (hc : c.isDigit = true)
    (h : w ∈ r.pattern) (hw : w <+: c :: cs) : ∀ d ∈ w, d.isDigit = true := by
  obtain ⟨k, rfl⟩ := exists_kind_of_match hnone h hw
  rcases mem_pattern_cases h with ⟨-, d, ds, rfl, hd, -⟩ | ⟨-, d, ds, rfl, hds⟩ | ⟨p, -, rfl⟩
  · rw [(List.cons_prefix_cons.1 hw).1, isWordStart_of_isDigit hc] at hd
    cases hd
  · exact hds
  · rw [(sign_head hw).2] at hc
    cases hc

theorem sign_of_match {r : Rule} (hnone : piece? (c :: cs) = none) (hc : Text.isWordStart c = false)
    (hdigit : c.isDigit = false) (h : w ∈ r.pattern) (hw : w <+: c :: cs) :
    ∃ p : Punctuator, w = p.spelling.toList := by
  obtain ⟨k, rfl⟩ := exists_kind_of_match hnone h hw
  rcases mem_pattern_cases h with ⟨-, d, ds, rfl, hd, -⟩ | ⟨-, d, ds, rfl, hds⟩ | ⟨p, -, rfl⟩
  · rw [(List.cons_prefix_cons.1 hw).1, hc] at hd
    cases hd
  · have hd := hds d List.mem_cons_self
    rw [(List.cons_prefix_cons.1 hw).1, hdigit] at hd
    cases hd
  · exact ⟨p, rfl⟩

theorem mem_pattern_ofWord (h : w ∈ Kind.identifier.pattern) :
    w ∈ (Kind.ofWord (String.ofList w)).pattern := by
  have hword {s : String} (hs : (String.ofList w == s) = true) : w = s.toList := by
    rw [← beq_iff_eq.1 hs, String.toList_ofList]
  unfold Kind.ofWord
  split
  · next hint => exact hword hint
  · split
    · next hreturn => exact hword hreturn
    · exact h

theorem longestMatch_word (hnone : piece? (c :: cs) = none) (hc : Text.isWordStart c = true) :
    LongestMatch (c :: cs) (.ofWord (String.ofList (c :: cs.takeWhile Text.isWordPart)))
      (c :: cs.takeWhile Text.isWordPart) (cs.dropWhile Text.isWordPart) where
  split := congrArg (c :: ·) List.takeWhile_append_dropWhile.symm
  matched := mem_pattern_ofWord
    (Kind.mem_identifier.2 ⟨c, _, rfl, hc, fun _ hd => List.mem_takeWhile_imp hd⟩)
  longest r w hr hw := by
    have hle := length_le_takeWhile (isWordPart_of_match hnone hc hr hw) hw
    rwa [List.takeWhile_cons_of_pos (Text.isWordPart_of_isWordStart hc)] at hle
  keyword k hk hlexeme := by
    cases k with
    | intKeyword => rw [show c :: cs.takeWhile Text.isWordPart = "int".toList from hlexeme]; rfl
    | returnKeyword => rw [show c :: cs.takeWhile Text.isWordPart = "return".toList from hlexeme]; rfl
    | identifier | number | punct | endOfFile | invalid => cases hk

theorem longestMatch_number (hnone : piece? (c :: cs) = none) (hc : c.isDigit = true) :
    LongestMatch (c :: cs) .number (c :: cs.takeWhile Char.isDigit) (cs.dropWhile Char.isDigit) where
  split := congrArg (c :: ·) List.takeWhile_append_dropWhile.symm
  matched := Kind.mem_number.2
    ⟨c, _, rfl, List.forall_mem_cons.2 ⟨hc, fun _ hd => List.mem_takeWhile_imp hd⟩⟩
  longest r w hr hw := by
    have hle := length_le_takeWhile (isDigit_of_match hnone hc hr hw) hw
    rwa [List.takeWhile_cons_of_pos hc] at hle
  keyword k hk hlexeme := by
    have hstart := isWordStart_of_isKeyword hk hlexeme
    rw [isWordStart_of_isDigit hc] at hstart
    cases hstart

theorem longestMatch_sign {p : Punctuator} (hnone : piece? (c :: cs) = none)
    (hc : Text.isWordStart c = false) (hdigit : c.isDigit = false)
    (hp : Punctuator.longest? (c :: cs) = some p) :
    LongestMatch (c :: cs) (.punct p) p.spelling.toList ((c :: cs).drop p.spelling.toList.length) where
  split := by
    have hstarts := List.find?_some hp
    exact (List.prefix_iff_eq_append.1 (List.isPrefixOf_iff_prefix.1 hstarts)).symm
  matched := rfl
  longest r w hr hw := by
    obtain ⟨q, rfl⟩ := sign_of_match hnone hc hdigit hr hw
    exact longest?_longest hp hw
  keyword k hk hlexeme := by
    obtain ⟨d, ds, hspelling, hopen, -⟩ := spelling_cases p
    rw [hspelling] at hlexeme
    rw [isWordStart_of_isKeyword hk hlexeme] at hopen
    cases hopen

theorem found_of_isWordStart (hnone : piece? (c :: cs) = none) (hc : Text.isWordStart c = true) :
    Found (c :: cs) (item (c :: cs)) := by
  have hword : Text.word? (c :: cs) =
      some (c :: cs.takeWhile Text.isWordPart, cs.dropWhile Text.isWordPart) := if_pos hc
  have htoken : token? (c :: cs) =
      some (.ofWord (String.ofList (c :: cs.takeWhile Text.isWordPart)), c :: cs.takeWhile Text.isWordPart,
        cs.dropWhile Text.isWordPart) := by
    unfold token?
    rw [hword]
  rw [item_of_token? htoken]
  refine .token (longestMatch_word hnone hc) ?_
  rintro ⟨body, heq, -⟩
  rw [(List.cons.inj heq).1] at hc
  cases hc

theorem unclosed_of_opening (hnone : piece? ('/' :: '*' :: cs) = none) : Unclosed ('/' :: '*' :: cs) :=
  ⟨cs, rfl, closeComment?_eq_none (Option.map_eq_none_iff.1 hnone)⟩

theorem not_opening (hnone : piece? (c :: cs) = none) (hclosed : ¬ Unclosed (c :: cs)) :
    c = '/' → ∀ d ∈ cs.head?, d ≠ '/' ∧ d ≠ '*' := by
  rintro rfl d hd
  obtain ⟨tail, rfl⟩ := List.head?_eq_some_iff.1 hd
  constructor
  · rintro rfl
    cases hnone
  · rintro rfl
    exact hclosed (unclosed_of_opening hnone)

theorem found_of_closed (hnone : piece? (c :: cs) = none) (hc : Text.isWordStart c = false)
    (hclosed : ¬ Unclosed (c :: cs)) : Found (c :: cs) (item (c :: cs)) := by
  have htoken := token?_of_not_word hc (not_opening hnone hclosed)
  by_cases hdigit : c.isDigit = true
  · rw [if_pos hdigit] at htoken
    rw [item_of_token? htoken]
    exact .token (longestMatch_number hnone hdigit) hclosed
  · rw [if_neg hdigit] at htoken
    rw [Bool.not_eq_true] at hdigit
    cases hlongest : Punctuator.longest? (c :: cs) with
    | some p =>
      rw [hlongest] at htoken
      rw [item_of_token? htoken]
      exact .token (longestMatch_sign hnone hc hdigit hlongest) hclosed
    | none =>
      rw [hlongest] at htoken
      have hitem : item (c :: cs) = .invalid c cs := by
        unfold item
        dsimp only
        rw [htoken]
        rfl
      rw [hitem]
      refine .invalid rfl (.inl fun r w hr hw => ?_)
      obtain ⟨p, rfl⟩ := sign_of_match hnone hc hdigit hr hw
      exact List.find?_eq_none.1 hlongest p (mem_all p) (List.isPrefixOf_iff_prefix.2 hw)

/-- The scan finds what the patterns say. -/
theorem found_item (hnone : piece? cs = none) : Found cs (item cs) := by
  cases cs with
  | nil => exact .finish rfl
  | cons c cs =>
    by_cases hc : Text.isWordStart c = true
    · exact found_of_isWordStart hnone hc
    · by_cases hopen : Unclosed (c :: cs)
      · obtain ⟨body, heq, hbody⟩ := hopen
        rw [heq]
        exact .invalid rfl (.inr ⟨body, rfl, hbody⟩)
      · exact found_of_closed hnone (Bool.eq_false_iff.2 hc) hopen

/-- A text matches the patterns of two kinds only if one of them is a keyword. -/
theorem kind_eq_of_mem (h : w ∈ k.pattern) (h' : w ∈ k'.pattern)
    (hkeyword : k.isKeyword = true → k' = k) (hkeyword' : k'.isKeyword = true → k = k') : k = k' := by
  obtain ⟨c, cs, rfl, hword, hdigit⟩ := head_of_mem h
  obtain ⟨d, ds, heq, hword', hdigit'⟩ := head_of_mem h'
  obtain ⟨rfl, rfl⟩ := List.cons.inj heq
  rcases mem_pattern_cases h with ⟨hk, -⟩ | ⟨rfl, -⟩ | ⟨p, rfl, hp⟩
  · have hk' : k'.isWord = true := hword'.symm.trans (hword.trans hk)
    simp only [Kind.isWord, Bool.or_eq_true, beq_iff_eq] at hk hk'
    rcases hk with hk | rfl
    · exact (hkeyword hk).symm
    · rcases hk' with hk' | rfl
      · exact hkeyword' hk'
      · rfl
  · have hk' : (k' == .number) = true := hdigit'.symm.trans hdigit
    exact (beq_iff_eq.1 hk').symm
  · rcases mem_pattern_cases h' with ⟨hk', -⟩ | ⟨rfl, -⟩ | ⟨q, rfl, hq⟩
    · cases hword.symm.trans (hword'.trans hk')
    · cases hdigit.symm.trans hdigit'
    · rw [spelling_injective (hp.symm.trans hq)]

theorem LongestMatch.unique {w' rest' : List Char} (h : LongestMatch cs k w rest)
    (h' : LongestMatch cs k' w' rest') : k = k' ∧ w = w' ∧ rest = rest' := by
  have hstarts : w <+: cs := ⟨rest, h.split.symm⟩
  have hstarts' : w' <+: cs := ⟨rest', h'.split.symm⟩
  have hle := h'.longest (.token k) w h.matched hstarts
  have hge := h.longest (.token k') w' h'.matched hstarts'
  obtain rfl : w = w' :=
    (List.prefix_of_prefix_length_le hstarts hstarts' hle).eq_of_length_le hge
  refine ⟨?_, rfl, List.append_cancel_left (h.split.symm.trans h'.split)⟩
  exact kind_eq_of_mem h.matched h'.matched (fun hk => h'.keyword k hk h.matched)
    fun hk => h.keyword k' hk h'.matched

theorem Found.eq_token {i : Item} (h : LongestMatch cs k w rest) (hclosed : ¬ Unclosed cs)
    (hi : Found cs i) : i = .token k w rest := by
  cases hi with
  | finish hnil =>
    obtain ⟨rfl, rfl⟩ := List.append_eq_nil_iff.1 (h.split.symm.trans hnil)
    obtain ⟨c, cs, heq, -⟩ := head_of_mem h.matched
    cases heq
  | token h' _ =>
    obtain ⟨rfl, rfl, rfl⟩ := h.unique h'
    rfl
  | invalid _ hnone =>
    rcases hnone with hnone | hopen
    · exact absurd ⟨rest, h.split.symm⟩ (hnone (.token k) w h.matched)
    · exact absurd hopen hclosed

theorem Found.unique {i j : Item} (hi : Found cs i) (hj : Found cs j) : i = j := by
  cases hi with
  | token h hclosed => exact (hj.eq_token h hclosed).symm
  | finish h =>
    subst h
    cases hj with
    | finish => rfl
    | token h' hclosed => exact eq_token h' hclosed (.finish rfl)
    | invalid h' => cases h'
  | invalid h hnone =>
    cases hj with
    | finish h' => cases h.symm.trans h'
    | token h' hclosed => exact eq_token h' hclosed (.invalid h hnone)
    | invalid h' => cases h.symm.trans h'; rfl

end Scan

namespace Preprocessor

open Scan

/-- What is done with the item that is found behind a gap. -/
def handle (p : Preprocessor) (gap rest : List Char) : Item → Step
  | .finish => p.leave
  | .invalid c after =>
    let frame := p.active.passGap gap rest
    .token (.invalid ("unrecognized character '" ++ Text.visible c ++ "'") (frame.position [c]))
      { p with active := frame.passItem [c] after }
  | .token kind lexeme after =>
    let frame := p.active.passGap gap rest
    deliver { p with active := frame.passItem lexeme after } frame.fresh
      ⟨kind, String.ofList lexeme, frame.position lexeme⟩

theorem step_eq_handle (p : Preprocessor) :
    p.step = p.handle (gap p.active.rest).1 (gap p.active.rest).2 (item (gap p.active.rest).2) := by
  unfold step
  dsimp only
  cases item (gap p.active.rest).2 <;> rfl

/-- A step goes over the longest gap there is and handles the item that the patterns find behind it, the longest
match or else one character; and there is just one such gap and item. -/
theorem step_takes_longest_match (p : Preprocessor) :
    (∃ gap rest i, MaximalGap p.active.rest gap rest ∧ Found rest i ∧ p.step = p.handle gap rest i ∧
      ∀ gap' rest' i', MaximalGap p.active.rest gap' rest' → Found rest' i' →
        gap' = gap ∧ rest' = rest ∧ i' = i) ∧
    ∀ w, w ∈ Rule.blockComment.pattern ↔
      ∃ body, w = '/' :: '*' :: (body ++ ['*', '/']) ∧ ¬ ['*', '/'] <:+: body ++ ['*'] := by
  have hgap := maximalGap_gap p.active.rest
  have hitem := found_item (piece?_gap p.active.rest)
  refine ⟨⟨_, _, _, hgap, hitem, p.step_eq_handle, fun gap' rest' i' hgap' hitem' => ?_⟩,
    fun w => Rule.mem_blockComment⟩
  obtain ⟨rfl, rfl⟩ := hgap'.unique hgap
  exact ⟨rfl, rfl, hitem'.unique hitem⟩

end Preprocessor

end SmallC
