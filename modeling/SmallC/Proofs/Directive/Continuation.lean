import Mathlib
import SmallC.Proofs.Directive.LogicalLine

/-!
# Definitions over several lines

A definition whose lines are continued has a body of several pieces. One backslash at the end of a line
belongs to the continuation and everything in front of it to the piece, so a piece may end in backslashes
itself. Reading puts the pieces together with newlines: the blanks in front of each are dropped, and so is
white space at the very end, which is all that is lost of the carriage returns behind the last piece.
-/
namespace SmallC

namespace Text

variable {p q : Char → Bool}

theorem dropEndWhile_append_takeEnd (q : Char → Bool) (cs : List Char) :
    dropEndWhile q cs ++ (cs.reverse.takeWhile q).reverse = cs := by
  rw [dropEndWhile, ← List.reverse_append, List.takeWhile_append_dropWhile, List.reverse_reverse]

/-- What is dropped anyway may be dropped before. -/
theorem dropEndWhile_append_dropEndWhile (h : ∀ c, q c = true → p c = true) (a b : List Char) :
    dropEndWhile p (a ++ dropEndWhile q b) = dropEndWhile p (a ++ b) := by
  have hdropped : (b.reverse.takeWhile q).reverse.all p = true := by
    refine List.all_eq_true.2 fun c hc => h c ?_
    exact List.mem_takeWhile_imp (List.mem_reverse.1 hc)
  conv_rhs => rw [← dropEndWhile_append_takeEnd q b, ← List.append_assoc, dropEndWhile_append,
    if_pos hdropped]

theorem dropReturns_backslash (cs : List Char) (n : Nat) :
    dropEndWhile (· == '\r') (cs ++ '\\' :: List.replicate n '\r') = cs ++ ['\\'] := by
  have hreturns : (List.replicate n '\r').all (· == '\r') = true := by simp
  rw [List.append_cons, dropEndWhile_append, if_pos hreturns, dropEndWhile_append, if_neg (by decide)]
  rfl

end Text

namespace Directive

variable {text last after more : List Char}

/-- A piece of a body on a line that goes on in the next one, with the carriage returns between its backslash
and the newline. -/
structure ContinuedPiece where
  text : List Char
  returns : Nat

def ContinuedPiece.line (piece : ContinuedPiece) : List Char :=
  piece.text ++ '\\' :: (List.replicate piece.returns '\r' ++ ['\n'])

/-- The lines of a body of several pieces. -/
def continuedText (front : List ContinuedPiece) (last : List Char) : List Char :=
  front.flatMap ContinuedPiece.line ++ last

/-- A definition with such a body, from the name of the directive on. -/
def continuedDefinition (name : List Char) (front : List ContinuedPiece) (last : List Char) : List Char :=
  "define".toList ++ ' ' :: (name ++ ' ' :: continuedText front last)

/-- The pieces as they are put together. -/
def joinedPieces (front : List ContinuedPiece) (last : List Char) : List Char :=
  List.intercalate ['\n'] ((front.map ContinuedPiece.text ++ [last]).map Text.skipInlineBlanks)

theorem isMidLine_of_mem (h : '\n' ∉ text) : ∀ c ∈ text, isMidLine c = true := by
  intro c hc
  have hother : c ≠ '\n' := fun heq => h (heq ▸ hc)
  simpa [isMidLine] using hother

/-- Blanks are skipped up to what is none. -/
theorem skipInlineBlanks_append (h : ∀ c ∈ more.head?, Text.isInlineBlank c = false)
    (text : List Char) :
    Text.skipInlineBlanks (text ++ more) = Text.skipInlineBlanks text ++ more := by
  have hstop : more.dropWhile Text.isInlineBlank = more := by
    cases more with
    | nil => rfl
    | cons c more => exact List.dropWhile_cons_of_neg (by simp [h c rfl])
  unfold Text.skipInlineBlanks
  rw [List.dropWhile_append]
  split
  · next hempty => rw [List.isEmpty_iff.1 hempty, hstop, List.nil_append]
  · rfl

/-- Where the physical line ends, if its text is known. -/
theorem physicalLine_of_append (h : '\n' ∉ text) (after : List Char)
    (hafter : ∀ c ∈ after.head?, c = '\n') :
    physicalLine (text ++ after) = text ∧ physicalEnd (text ++ after) = after := by
  have hmid := isMidLine_of_mem h
  rw [physicalLine_append hmid, physicalEnd_append hmid]
  cases after with
  | nil => exact ⟨List.append_nil text, rfl⟩
  | cons c after =>
    obtain rfl := hafter c rfl
    exact ⟨List.append_nil text, rfl⟩

theorem logicalLine_of_not_continued {cs : List Char} (h : ¬ Continued (physicalLine cs)) :
    logicalLine cs = ⟨Text.dropEndWhile (· == '\r') (physicalLine cs), physicalEnd cs, 0⟩ := by
  rw [logicalLine]
  exact if_neg h

theorem logicalLine_of_continued {cs next : List Char} {newline : Char}
    (h : Continued (physicalLine cs)) (hnext : physicalEnd cs = newline :: next) :
    let more := logicalLine (Text.skipInlineBlanks next)
    logicalLine cs =
      ⟨(Text.dropEndWhile (· == '\r') (physicalLine cs)).dropLast ++ '\n' :: more.text, more.rest,
        more.newlines + 1⟩ := by
  intro more
  rw [logicalLine]
  refine (if_pos h).trans ?_
  split
  · next hnil => cases hnil.symm.trans hnext
  · next hcons =>
    cases hcons.symm.trans hnext
    rfl

/-- A line that goes on gives its piece, and the next line the rest. -/
theorem logicalLine_piece (h : '\n' ∉ text) (n : Nat) (more : List Char) :
    let next := logicalLine (Text.skipInlineBlanks more)
    logicalLine (text ++ '\\' :: (List.replicate n '\r' ++ '\n' :: more)) =
      ⟨text ++ '\n' :: next.text, next.rest, next.newlines + 1⟩ := by
  intro next
  have hfront : '\n' ∉ text ++ '\\' :: List.replicate n '\r' := by
    simp [h, List.mem_replicate]
  have hdropped := Text.dropReturns_backslash text n
  have hcontinued : Continued (text ++ '\\' :: List.replicate n '\r') := by
    rw [Continued, hdropped, List.getLast?_concat]
  obtain ⟨hline, hrest⟩ := physicalLine_of_append hfront ('\n' :: more) (by simp)
  rw [List.append_assoc, List.cons_append] at hline hrest
  rw [logicalLine_of_continued (hline ▸ hcontinued) hrest, hline, hdropped, List.dropLast_concat]

theorem logicalLine_last (h : '\n' ∉ last) (hend : ¬ Continued last)
    (hafter : ∀ c ∈ after.head?, c = '\n') :
    logicalLine (last ++ after) = ⟨Text.dropEndWhile (· == '\r') last, after, 0⟩ := by
  obtain ⟨hline, hrest⟩ := physicalLine_of_append h after hafter
  rw [logicalLine_of_not_continued (hline.symm ▸ hend), hline, hrest]

theorem continued_skipInlineBlanks (h : ¬ Continued last) : ¬ Continued (Text.skipInlineBlanks last) := by
  obtain ⟨skipped, hcut, -, hskipped⟩ := (leftOf_skipInlineBlanks last).exists_skipped
  rwa [hcut, continued_append_iff hskipped] at h

theorem newline_notMem_skipInlineBlanks (h : '\n' ∉ text) : '\n' ∉ Text.skipInlineBlanks text :=
  fun hmem => h ((List.dropWhile_sublist Text.isInlineBlank).mem hmem)

/-- The pieces in front, each with the newline that it is put together with. -/
def frontPieces (front : List ContinuedPiece) : List Char :=
  front.flatMap fun piece => Text.skipInlineBlanks piece.text ++ ['\n']

theorem joinedPieces_eq (front : List ContinuedPiece) (last : List Char) :
    joinedPieces front last = frontPieces front ++ Text.skipInlineBlanks last := by
  unfold joinedPieces frontPieces
  induction front with
  | nil => simp
  | cons piece front ih =>
    rw [List.flatMap_cons, List.append_assoc, ← ih]
    cases front with
    | nil => simp
    | cons next front => simp

/-- The logical line of a body of several pieces, one line after the other. -/
theorem logicalLine_continuedText {front : List ContinuedPiece}
    (hfront : ∀ piece ∈ front, '\n' ∉ piece.text) (hlast : '\n' ∉ last) (hend : ¬ Continued last)
    (hafter : ∀ c ∈ after.head?, c = '\n') :
    logicalLine (Text.skipInlineBlanks (continuedText front last ++ after)) =
      ⟨frontPieces front ++ Text.dropEndWhile (· == '\r') (Text.skipInlineBlanks last), after,
        front.length⟩ := by
  induction front with
  | nil =>
    have hblank : ∀ c ∈ after.head?, Text.isInlineBlank c = false := by
      intro c hc
      rw [hafter c hc]
      rfl
    change logicalLine (Text.skipInlineBlanks (last ++ after)) = _
    rw [skipInlineBlanks_append hblank, logicalLine_last (newline_notMem_skipInlineBlanks hlast)
      (continued_skipInlineBlanks hend) hafter]
    rfl
  | cons piece front ih =>
    obtain ⟨hpiece, hfront⟩ := List.forall_mem_cons.1 hfront
    have hcut : continuedText (piece :: front) last ++ after =
        piece.text ++ '\\' :: (List.replicate piece.returns '\r' ++
          '\n' :: (continuedText front last ++ after)) := by
      simp [continuedText, ContinuedPiece.line]
    have hblank : ∀ c ∈ ('\\' :: (List.replicate piece.returns '\r' ++
        '\n' :: (continuedText front last ++ after))).head?, Text.isInlineBlank c = false := by
      intro c hc
      cases hc
      rfl
    rw [hcut, skipInlineBlanks_append hblank,
      logicalLine_piece (newline_notMem_skipInlineBlanks hpiece), ih hfront]
    simp [frontPieces]

/-- The carriage returns behind the last piece are white space at the end of the body. -/
theorem trimEnd_lastPiece (front : List ContinuedPiece) (last : List Char) :
    Text.trimEnd (frontPieces front ++ Text.dropEndWhile (· == '\r') (Text.skipInlineBlanks last)) =
      Text.trimEnd (joinedPieces front last) := by
  have hreturn : ∀ c : Char, (c == '\r') = true → Text.isWhiteSpace c = true := by
    intro c hc
    rw [beq_iff_eq.1 hc]
    rfl
  rw [joinedPieces_eq, Text.trimEnd, Text.trimEnd, Text.dropEndWhile_append_dropEndWhile hreturn]

theorem lines_continuedText {front : List ContinuedPiece}
    (hfront : ∀ piece ∈ front, '\n' ∉ piece.text) (hlast : '\n' ∉ last) :
    Text.lines (continuedText front last) = front.length := by
  unfold continuedText Text.lines
  induction front with
  | nil => exact List.count_eq_zero.2 hlast
  | cons piece front ih =>
    obtain ⟨hpiece, hfront⟩ := List.forall_mem_cons.1 hfront
    have hreturns : '\n' ∉ List.replicate piece.returns '\r' := by
      rw [List.mem_replicate]
      exact fun h => absurd h.2 (by decide)
    have hline : piece.line.count '\n' = 1 := by
      rw [ContinuedPiece.line, List.count_append, List.count_eq_zero.2 hpiece,
        List.count_cons_of_ne (by decide), List.count_append, List.count_eq_zero.2 hreturns]
      rfl
    rw [List.flatMap_cons, List.append_assoc, List.count_append, hline, ih hfront, List.length_cons,
      Nat.add_comm]

theorem isInlineBlank_of_isWordStart {c : Char} (h : Text.isWordStart c = true) :
    Text.isInlineBlank c = false := by
  refine Bool.eq_false_iff.2 fun hblank => ?_
  have hspace : Text.isSpace c = true := by rw [Text.isSpace, hblank, Bool.true_or]
  have hpart := Text.isWordPart_of_isWordStart h
  rw [Text.isWordPart_of_isSpace hspace] at hpart
  cases hpart

theorem readDefine_of_word {cs name rest : List Char}
    (hword : Text.word? (Text.skipInlineBlanks cs) = some (name, rest)) (hopen : rest.head? ≠ some '(') :
    let line := logicalLine (Text.skipInlineBlanks rest)
    readDefine cs =
      ⟨.ok (.define (String.ofList name) (String.ofList (Text.trimEnd line.text))), line.rest,
        line.newlines⟩ := by
  intro line
  unfold readDefine
  split
  · next hnone => cases hnone.symm.trans hword
  · next hparen =>
    cases hparen.symm.trans hword
    exact absurd rfl hopen
  · next hsome =>
    cases hsome.symm.trans hword
    rfl

theorem readDefine_continued {c : Char} {name : List Char} (hc : Text.isWordStart c = true)
    (hname : ∀ d ∈ name, Text.isWordPart d = true) {front : List ContinuedPiece}
    (hfront : ∀ piece ∈ front, '\n' ∉ piece.text) (hlast : '\n' ∉ last) (hend : ¬ Continued last)
    (hafter : ∀ d ∈ after.head?, d = '\n') :
    readDefine (' ' :: (c :: name ++ ' ' :: (continuedText front last ++ after))) =
      ⟨.ok (.define (String.ofList (c :: name)) (String.ofList (Text.trimEnd (joinedPieces front last)))),
        after, front.length⟩ := by
  have hskip (cs : List Char) : Text.skipInlineBlanks (' ' :: cs) = Text.skipInlineBlanks cs :=
    List.dropWhile_cons_of_pos rfl
  have hstop (cs : List Char) : Text.skipInlineBlanks (c :: cs) = c :: cs :=
    List.dropWhile_cons_of_neg (by simp [isInlineBlank_of_isWordStart hc])
  have hword : Text.word? (c :: name ++ ' ' :: (continuedText front last ++ after)) =
      some (c :: name, ' ' :: (continuedText front last ++ after)) := by
    refine Text.word?_append hc hname fun d hd => ?_
    cases hd
    rfl
  have hblanks : Text.skipInlineBlanks (' ' :: (c :: name ++ ' ' :: (continuedText front last ++ after))) =
      c :: name ++ ' ' :: (continuedText front last ++ after) := (hskip _).trans (hstop _)
  rw [readDefine_of_word (by rw [hblanks, hword]) (by simp), hskip,
    logicalLine_continuedText hfront hlast hend hafter, trimEnd_lastPiece]

theorem logicalLine_after (hafter : ∀ c ∈ after.head?, c = '\n') : logicalLine after = ⟨[], after, 0⟩ := by
  have hempty : ¬ Continued [] := by decide
  exact logicalLine_last List.not_mem_nil hempty hafter

theorem continuedDefinition_append (name : List Char) (front : List ContinuedPiece) (last after : List Char) :
    continuedDefinition name front last ++ after =
      "define".toList ++ ' ' :: (name ++ ' ' :: (continuedText front last ++ after)) := by
  change ("define".toList ++ ' ' :: (name ++ ' ' :: continuedText front last)) ++ after = _
  rw [List.append_assoc, List.cons_append, List.append_assoc, List.cons_append]

theorem read_continuedDefinition {c : Char} {name : List Char} (hc : Text.isWordStart c = true)
    (hname : ∀ d ∈ name, Text.isWordPart d = true) {front : List ContinuedPiece}
    (hfront : ∀ piece ∈ front, '\n' ∉ piece.text) (hlast : '\n' ∉ last) (hend : ¬ Continued last)
    (hafter : ∀ d ∈ after.head?, d = '\n') :
    read (continuedDefinition (c :: name) front last ++ after) =
      ⟨.ok (.define (String.ofList (c :: name)) (String.ofList (Text.trimEnd (joinedPieces front last)))),
        after, front.length⟩ := by
  rw [continuedDefinition_append]
  have hword (cs : List Char) :
      Text.word? ("define".toList ++ ' ' :: cs) = some ("define".toList, ' ' :: cs) := by
    refine Text.word?_append rfl (List.all_eq_true.1 rfl) fun d hd => ?_
    cases hd
    rfl
  have hread (cs : List Char) : read ("define".toList ++ ' ' :: cs) = (readDefine (' ' :: cs)).endLine := by
    have hblanks : Text.skipInlineBlanks ("define".toList ++ ' ' :: cs) = "define".toList ++ ' ' :: cs := rfl
    unfold read
    dsimp only
    rw [hblanks, hword]
    rfl
  rw [hread, readDefine_continued hc hname hfront hlast hend hafter, Reading.endLine,
    logicalLine_after hafter]
  rfl

theorem lines_continuedDefinition {name : List Char} (hname : ∀ d ∈ name, Text.isWordPart d = true)
    {front : List ContinuedPiece} (hfront : ∀ piece ∈ front, '\n' ∉ piece.text) (hlast : '\n' ∉ last) :
    Text.lines (continuedDefinition name front last) = front.length := by
  have hword : '\n' ∉ name := by
    intro hmem
    cases hname _ hmem
  have hcons {c : Char} (hc : c ≠ '\n') (cs : List Char) : Text.lines (c :: cs) = Text.lines cs :=
    List.count_cons_of_ne hc
  have hdefine : Text.lines "define".toList = 0 := by decide
  change Text.lines ("define".toList ++ ' ' :: (name ++ ' ' :: continuedText front last)) = _
  rw [Text.lines_append, hdefine, hcons (by decide), Text.lines_append, Text.lines,
    List.count_eq_zero.2 hword, hcons (by decide), lines_continuedText hfront hlast, Nat.zero_add,
    Nat.zero_add]

/-- A definition over several lines, of any pieces that hold no newline and of which the last does not go on,
is read as its name with the pieces put together. It is read up to the end of the last piece, over as many
newlines as there are pieces in front of it. -/
theorem continued_definition_decoded (c : Char) (name : List Char) (front : List ContinuedPiece)
    (last after : List Char) (hc : Text.isWordStart c = true)
    (hname : ∀ d ∈ name, Text.isWordPart d = true) (hfront : ∀ piece ∈ front, '\n' ∉ piece.text)
    (hlast : '\n' ∉ last) (hend : ¬ Continued last) (hafter : ∀ d ∈ after.head?, d = '\n') :
    let written := continuedDefinition (c :: name) front last
    let reading := read (written ++ after)
    reading.outcome =
        .ok (.define (String.ofList (c :: name)) (String.ofList (Text.trimEnd (joinedPieces front last)))) ∧
      reading.rest = after ∧ Text.before (written ++ after) reading.rest = written ∧
      reading.newlines = front.length ∧ Text.lines written = front.length := by
  intro written reading
  have hread : reading = ⟨_, after, front.length⟩ :=
    read_continuedDefinition hc hname hfront hlast hend hafter
  have hword : ∀ d ∈ c :: name, Text.isWordPart d = true :=
    List.forall_mem_cons.2 ⟨Text.isWordPart_of_isWordStart hc, hname⟩
  rw [hread]
  exact ⟨rfl, rfl, Text.before_append written after, rfl, lines_continuedDefinition hword hfront hlast⟩

/-- Pieces that end in a backslash, in a carriage return and in nothing but blanks, in front of one that
ends in white space. -/
theorem backslash_kept_in_piece :
    let front : List ContinuedPiece := [⟨" a\\".toList, 1⟩, ⟨"\t".toList, 2⟩, ⟨"b\r".toList, 0⟩]
    let written := continuedDefinition ['N'] front " c\u2003\r".toList
    let reading := read (written ++ "\nd".toList)
    String.ofList written = "define N  a\\\\\r\n\t\\\r\r\nb\r\\\n c\u2003\r" ∧
      reading.outcome = .ok (.define "N" "a\\\n\nb\r\nc") ∧ reading.rest = "\nd".toList ∧
      reading.newlines = 3 ∧ Text.lines (Text.before (written ++ "\nd".toList) reading.rest) = 3 := by
  intro front written reading
  have hfront : ∀ piece ∈ front, '\n' ∉ piece.text := by
    unfold front
    decide
  have hend : ¬ Continued " c\u2003\r".toList := by decide
  obtain ⟨houtcome, hrest, hbefore, hnewlines, hlines⟩ := continued_definition_decoded 'N' [] front
    " c\u2003\r".toList "\nd".toList rfl (List.forall_mem_nil _) hfront (by decide) hend
    fun d hd => (Option.some.inj hd).symm
  refine ⟨by unfold written front; decide, houtcome.trans ?_, hrest, hnewlines, ?_⟩
  · unfold front
    decide
  · rw [hbefore, hlines]
    rfl

end Directive

end SmallC
