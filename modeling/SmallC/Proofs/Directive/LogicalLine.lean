import Mathlib
import SmallC.Directive

/-!
# The line that a directive takes

A physical line that ends in a backslash, carriage returns aside, goes on in the next one, and
`logicalEnd` is the text from the end of the logical line on. Reading a directive goes over parts of its
first physical line and drops the rest from there, which comes to the same end unless what was gone over
ends in the backslash. That happens in two kinds of include only, `CutInclude`: their rest is dropped from
the end of the physical line, and the lines that it goes on in are left to be read as program text.
-/
namespace SmallC

namespace Text

theorem dropEndWhile_append (p : Char → Bool) (a b : List Char) :
    dropEndWhile p (a ++ b) =
      if b.all p then dropEndWhile p a else a ++ dropEndWhile p b := by
  unfold dropEndWhile
  rw [List.reverse_append, List.dropWhile_append]
  by_cases hb : b.all p = true
  · have hnone : b.reverse.dropWhile p = [] := by
      rw [List.dropWhile_eq_nil_iff]
      intro c hc
      exact List.all_eq_true.1 hb c (List.mem_reverse.1 hc)
    rw [if_pos hb, hnone]
    rfl
  · have hsome : b.reverse.dropWhile p ≠ [] := by
      rw [Ne, List.dropWhile_eq_nil_iff]
      intro hall
      exact hb (List.all_eq_true.2 fun c hc => hall c (List.mem_reverse.2 hc))
    rw [if_neg hb, if_neg (by simpa using hsome), List.reverse_append, List.reverse_reverse]

theorem mem_of_mem_dropEndWhile {p : Char → Bool} {cs : List Char} {c : Char}
    (h : c ∈ dropEndWhile p cs) : c ∈ cs :=
  List.mem_reverse.1 ((List.dropWhile_sublist p).mem (List.mem_reverse.1 h))

end Text

namespace Directive

variable {cs rest skipped line : List Char}

/-- The physical line that the text starts with. -/
def physicalLine (cs : List Char) : List Char :=
  cs.takeWhile isMidLine

/-- The text from the end of the physical line on. -/
def physicalEnd (cs : List Char) : List Char :=
  cs.dropWhile isMidLine

/-- The line ends in a backslash, carriage returns aside. -/
def Continued (line : List Char) : Prop :=
  (Text.dropEndWhile (· == '\r') line).getLast? = some '\\'

instance (line : List Char) : Decidable (Continued line) :=
  inferInstanceAs (Decidable (_ = _))

theorem length_lt_of_physicalEnd {cs next : List Char} {c : Char} (h : physicalEnd cs = c :: next) :
    next.length < cs.length := by
  have shorter := length_dropWhile_le isMidLine cs
  unfold physicalEnd at h
  rw [h, List.length_cons] at shorter
  omega

/-- The text from the end of the logical line on. -/
def logicalEnd (cs : List Char) : List Char :=
  match h : physicalEnd cs with
  | [] => []
  | newline :: next =>
    have := length_lt_of_physicalEnd h
    if Continued (physicalLine cs) then logicalEnd next else newline :: next
termination_by cs.length

theorem logicalEnd_of_nil (h : physicalEnd cs = []) : logicalEnd cs = [] := by
  rw [logicalEnd]
  split
  · rfl
  · next hcons =>
    rw [h] at hcons
    cases hcons

theorem logicalEnd_of_cons {newline : Char} {next : List Char} (h : physicalEnd cs = newline :: next) :
    logicalEnd cs = if Continued (physicalLine cs) then logicalEnd next else newline :: next := by
  rw [logicalEnd]
  split
  · next hnil =>
    rw [h] at hnil
    cases hnil
  · next hcons =>
    rw [h] at hcons
    cases hcons
    rfl

theorem logicalEnd_of_not_continued (h : ¬ Continued (physicalLine cs)) :
    logicalEnd cs = physicalEnd cs := by
  cases he : physicalEnd cs with
  | nil => exact logicalEnd_of_nil he
  | cons newline next => rw [logicalEnd_of_cons he, if_neg h]

theorem physicalEnd_cons {newline : Char} {next : List Char} (h : physicalEnd cs = newline :: next) :
    newline = '\n' :=
  eq_newline_of_dropWhile h

/-- A line that is gone over in two parts is continued as its second part is, unless nothing but carriage
returns is left of it. -/
theorem continued_append (a b : List Char) :
    Continued (a ++ b) ↔ if b.all (· == '\r') then Continued a else Continued b := by
  unfold Continued
  rw [Text.dropEndWhile_append]
  split
  · rfl
  · next hb =>
    have hleft : Text.dropEndWhile (· == '\r') b ≠ [] := by
      intro hnil
      refine hb (List.all_eq_true.2 fun c hc => ?_)
      rw [Text.dropEndWhile, List.reverse_eq_nil_iff, List.dropWhile_eq_nil_iff] at hnil
      exact hnil c (List.mem_reverse.2 hc)
    rw [List.getLast?_append, List.getLast?_eq_some_getLast hleft, Option.some_or]

theorem Continued.mem (h : Continued line) : '\\' ∈ line :=
  Text.mem_of_mem_dropEndWhile (List.mem_of_getLast? h)

theorem not_continued_of_returns (h : ∀ c ∈ line, c = '\r') : ¬ Continued line := by
  intro hcontinued
  cases h _ hcontinued.mem

theorem physicalLine_append (h : ∀ c ∈ skipped, isMidLine c = true) (cs : List Char) :
    physicalLine (skipped ++ cs) = skipped ++ physicalLine cs :=
  List.takeWhile_append_of_pos h

theorem physicalEnd_append (h : ∀ c ∈ skipped, isMidLine c = true) (cs : List Char) :
    physicalEnd (skipped ++ cs) = physicalEnd cs :=
  List.dropWhile_append_of_pos h

/-- The end of a logical line is the same behind a part of its first physical line, if that line is
continued exactly if what is left of it is. -/
theorem logicalEnd_append (hline : ∀ c ∈ skipped, isMidLine c = true)
    (hsame : Continued (skipped ++ physicalLine cs) ↔ Continued (physicalLine cs)) :
    logicalEnd (skipped ++ cs) = logicalEnd cs := by
  have hend := physicalEnd_append hline cs
  cases he : physicalEnd cs with
  | nil => rw [logicalEnd_of_nil he, logicalEnd_of_nil (hend.trans he)]
  | cons newline next =>
    rw [logicalEnd_of_cons he, logicalEnd_of_cons (hend.trans he), physicalLine_append hline]
    exact if_congr hsame rfl rfl

theorem continued_append_iff (hlast : ¬ Continued skipped) :
    Continued (skipped ++ line) ↔ Continued line := by
  rw [continued_append]
  split
  · next hreturns =>
    refine iff_of_false hlast (not_continued_of_returns fun c hc => ?_)
    exact beq_iff_eq.1 (List.all_eq_true.1 hreturns c hc)
  · rfl

/-- `rest` is what is left of `cs` behind characters that are neither newlines nor backslashes. -/
def LeftOf (rest cs : List Char) : Prop :=
  ∃ skipped, cs = skipped ++ rest ∧ ∀ c ∈ skipped, c ≠ '\n' ∧ c ≠ '\\'

theorem LeftOf.trans {more : List Char} (h : LeftOf more rest) (h' : LeftOf rest cs) :
    LeftOf more cs := by
  obtain ⟨a, rfl, ha⟩ := h
  obtain ⟨b, rfl, hb⟩ := h'
  refine ⟨b ++ a, (List.append_assoc ..).symm, fun c hc => ?_⟩
  rcases List.mem_append.1 hc with hc | hc
  · exact hb c hc
  · exact ha c hc

theorem LeftOf.exists_skipped (h : LeftOf rest cs) :
    ∃ skipped, cs = skipped ++ rest ∧ (∀ c ∈ skipped, isMidLine c = true) ∧ ¬ Continued skipped := by
  obtain ⟨skipped, rfl, hskipped⟩ := h
  refine ⟨skipped, rfl, fun c hc => ?_, fun hcontinued => (hskipped _ hcontinued.mem).2 rfl⟩
  simpa [isMidLine] using (hskipped c hc).1

theorem LeftOf.logicalEnd_eq (h : LeftOf rest cs) : logicalEnd rest = logicalEnd cs := by
  obtain ⟨skipped, rfl, hline, hlast⟩ := h.exists_skipped
  exact (logicalEnd_append hline (continued_append_iff hlast)).symm

theorem LeftOf.physicalEnd_eq (h : LeftOf rest cs) : physicalEnd rest = physicalEnd cs := by
  obtain ⟨skipped, rfl, hline, -⟩ := h.exists_skipped
  exact (physicalEnd_append hline rest).symm

theorem leftOf_skipInlineBlanks (cs : List Char) : LeftOf (Text.skipInlineBlanks cs) cs := by
  refine ⟨cs.takeWhile Text.isInlineBlank, List.takeWhile_append_dropWhile.symm, fun c hc => ?_⟩
  have hblank := List.mem_takeWhile_imp hc
  constructor
  · rintro rfl
    cases hblank
  · rintro rfl
    cases hblank

theorem leftOf_word {word : List Char} (h : Text.word? cs = some (word, rest)) : LeftOf rest cs := by
  refine ⟨word, (Text.word?_eq h).1, fun c hc => ?_⟩
  have hpart := Text.isWordPart_of_mem_word h c hc
  constructor
  · rintro rfl
    cases hpart
  · rintro rfl
    cases hpart

/-- Blanks are dropped after each newline, but the line ends where it would end with them. -/
theorem logicalLine_rest (cs : List Char) : (logicalLine cs).rest = logicalEnd cs := by
  fun_induction logicalLine cs with
  | case1 cs _ hnil => exact (logicalEnd_of_nil hnil).symm
  | case2 cs hcontinued newline next hcons _ more ih =>
    rw [(leftOf_skipInlineBlanks next).logicalEnd_eq] at ih
    rw [logicalEnd_of_cons hcons]
    exact ih.trans (if_pos hcontinued).symm
  | case3 cs hstops => exact (logicalEnd_of_not_continued hstops).symm

theorem logicalEnd_newline (next : List Char) : logicalEnd ('\n' :: next) = '\n' :: next := by
  have hempty : ¬ Continued (physicalLine ('\n' :: next)) := fun h => nomatch h.mem
  exact logicalEnd_of_not_continued hempty

theorem logicalEnd_logicalEnd (cs : List Char) : logicalEnd (logicalEnd cs) = logicalEnd cs := by
  fun_induction logicalEnd cs with
  | case1 => exact logicalEnd_of_nil rfl
  | case2 cs newline next _ _ _ ih => exact ih
  | case3 cs newline next hcons _ _ =>
    obtain rfl := physicalEnd_cons hcons
    exact logicalEnd_newline next

theorem readDefine_end (cs : List Char) : logicalEnd (readDefine cs).rest = logicalEnd cs := by
  have hblanks := leftOf_skipInlineBlanks cs
  unfold readDefine
  split
  · exact hblanks.logicalEnd_eq
  · next h => exact ((leftOf_word h).trans hblanks).logicalEnd_eq
  · next rest _ h =>
    have hbody := leftOf_skipInlineBlanks rest
    dsimp only
    rw [logicalLine_rest, logicalEnd_logicalEnd]
    exact (hbody.trans ((leftOf_word h).trans hblanks)).logicalEnd_eq

theorem readUndefine_end (cs : List Char) : logicalEnd (readUndefine cs).rest = logicalEnd cs := by
  have hblanks := leftOf_skipInlineBlanks cs
  unfold readUndefine
  split
  · exact hblanks.logicalEnd_eq
  · next h => exact ((leftOf_word h).trans hblanks).logicalEnd_eq

/-- What is no include ends with its logical line. -/
theorem readNamed_end {name : String} (h : name ≠ "include") (cs : List Char) :
    logicalEnd (readNamed name cs).rest = logicalEnd cs := by
  unfold readNamed
  split
  · exact absurd rfl h
  · exact readDefine_end cs
  · exact readUndefine_end cs
  · rfl

/-- What stands where an include has its path, up to the end of the line, is no path: it is not closed, or
it is the backslash that ends the line. -/
inductive CutPath : List Char → Prop where
  | quoted {path : List Char} (h : '"' ∉ path) : CutPath ('"' :: path)
  | angled {path : List Char} (h : '>' ∉ path) : CutPath ('<' :: path)
  | backslash {returns : List Char} (h : ∀ c ∈ returns, c = '\r') : CutPath ('\\' :: returns)

/-- The line is that of an include with nothing but a cut path behind the word. -/
def CutInclude (line : List Char) : Prop :=
  ∃ blanks more path, line = blanks ++ ("include".toList ++ (more ++ path)) ∧
    (∀ c ∈ blanks ++ more, Text.isInlineBlank c = true) ∧ CutPath path

theorem physicalLine_append_physicalEnd (cs : List Char) : physicalLine cs ++ physicalEnd cs = cs :=
  List.takeWhile_append_dropWhile

theorem isMidLine_of_mem_physicalLine {c : Char} (h : c ∈ physicalLine cs) : isMidLine c = true :=
  List.mem_takeWhile_imp h

/-- A path that is not closed is gone over to the end of its physical line. -/
theorem readPath_unclosed (style : IncludeStyle) {close : Char} (hclose : close = '"' ∨ close = '>')
    (h : close ∉ physicalLine cs) :
    readPath style close cs = ⟨.error .noPathEnd, physicalEnd cs, 0⟩ := by
  have hline : ∀ c ∈ physicalLine cs, (c != close && c != '\n') = true := by
    intro c hc
    have hother : c ≠ close := fun heq => h (heq ▸ hc)
    simpa [hother, isMidLine] using isMidLine_of_mem_physicalLine hc
  have hstop : cs.dropWhile (fun c => c != close && c != '\n') = physicalEnd cs := by
    conv =>
      lhs
      rw [← physicalLine_append_physicalEnd cs, List.dropWhile_append_of_pos hline]
    cases he : physicalEnd cs with
    | nil => rfl
    | cons newline next =>
      obtain rfl := physicalEnd_cons he
      exact List.dropWhile_cons_of_neg (by simp)
  unfold readPath
  dsimp only
  rw [hstop]
  cases he : physicalEnd cs with
  | nil => rfl
  | cons newline next =>
    obtain rfl := physicalEnd_cons he
    rcases hclose with rfl | rfl <;> rfl

theorem readPath_closed (style : IncludeStyle) {close : Char} {path : List Char}
    (h : ∀ c ∈ path, c ≠ close ∧ c ≠ '\n') (rest : List Char) :
    (readPath style close (path ++ close :: rest)).rest = rest := by
  have hpath : ∀ c ∈ path, (c != close && c != '\n') = true := by
    intro c hc
    simpa using h c hc
  have hstop : (path ++ close :: rest).dropWhile (fun c => c != close && c != '\n') = close :: rest := by
    rw [List.dropWhile_append_of_pos hpath]
    exact List.dropWhile_cons_of_neg (by simp)
  unfold readPath
  dsimp only
  rw [hstop]
  dsimp only
  rw [if_neg (by simp)]
  split <;> rfl

/-- A path that is closed ends inside the line. -/
theorem readPath_end (style : IncludeStyle) {close : Char} (hclose : close = '"' ∨ close = '>')
    (h : close ∈ physicalLine cs) : logicalEnd (readPath style close cs).rest = logicalEnd cs := by
  obtain ⟨path, after, hcut, hfirst⟩ := List.eq_append_cons_of_mem h
  have hmid : ∀ c ∈ path ++ [close], isMidLine c = true := by
    intro c hc
    apply isMidLine_of_mem_physicalLine
    rw [hcut]
    rcases List.mem_append.1 hc with hc | hc
    · exact List.mem_append_left _ hc
    · exact List.mem_append_right _ (List.mem_singleton.1 hc ▸ List.mem_cons_self)
  have hpath : ∀ c ∈ path, c ≠ close ∧ c ≠ '\n' := by
    intro c hc
    refine ⟨fun heq => hfirst (heq ▸ hc), ?_⟩
    simpa [isMidLine] using hmid c (List.mem_append_left _ hc)
  have hlast : ¬ Continued (path ++ [close]) := by
    rcases hclose with rfl | rfl <;>
      rw [continued_append, if_neg (by decide)] <;> decide
  have hcs : cs = (path ++ [close]) ++ (after ++ physicalEnd cs) := by
    conv =>
      lhs
      rw [← physicalLine_append_physicalEnd cs, hcut]
    simp
  rw [hcs, logicalEnd_append hmid (continued_append_iff hlast), List.append_assoc,
    List.singleton_append, readPath_closed style hpath]

theorem physicalLine_cons {c : Char} (h : isMidLine c = true) (cs : List Char) :
    physicalLine (c :: cs) = c :: physicalLine cs :=
  List.takeWhile_cons_of_pos h

theorem logicalEnd_physicalEnd (cs : List Char) : logicalEnd (physicalEnd cs) = physicalEnd cs := by
  cases he : physicalEnd cs with
  | nil => exact logicalEnd_of_nil rfl
  | cons newline next =>
    obtain rfl := physicalEnd_cons he
    exact logicalEnd_newline next

/-- A backslash ends the line if nothing but carriage returns stands behind it; else the line ends where
the rest of it ends. -/
theorem logicalEnd_backslash (h : ¬ ∀ c ∈ physicalLine cs, c = '\r') :
    logicalEnd ('\\' :: cs) = logicalEnd cs := by
  have hmore : ¬ (physicalLine cs).all (· == '\r') = true := by
    intro hall
    exact h fun c hc => beq_iff_eq.1 (List.all_eq_true.1 hall c hc)
  have hsame : Continued (['\\'] ++ physicalLine cs) ↔ Continued (physicalLine cs) := by
    rw [continued_append, if_neg hmore]
  exact logicalEnd_append (List.all_eq_true.1 rfl) hsame

/-- Reading what stands between delimiters ends with the logical line exactly if it is closed. -/
theorem readPath_opened (style : IncludeStyle) (opening : Char) {close : Char}
    (hopening : opening ≠ '\n' ∧ opening ≠ '\\') (hclose : close = '"' ∨ close = '>') (cs : List Char) :
    (close ∈ physicalLine cs →
        logicalEnd (readPath style close cs).rest = logicalEnd (opening :: cs)) ∧
      (close ∉ physicalLine cs → (∃ fault, (readPath style close cs).outcome = .error fault) ∧
        logicalEnd (readPath style close cs).rest = physicalEnd (opening :: cs)) := by
  have hleft : LeftOf cs (opening :: cs) := ⟨[opening], rfl, List.forall_mem_singleton.2 hopening⟩
  rw [← hleft.logicalEnd_eq, ← hleft.physicalEnd_eq]
  refine ⟨readPath_end style hclose, fun hopen => ?_⟩
  rw [readPath_unclosed style hclose hopen]
  exact ⟨⟨_, rfl⟩, logicalEnd_physicalEnd cs⟩

/-- Reading an include ends with its logical line, unless its path is cut. -/
theorem readInclude_end (cs : List Char) :
    (¬ CutPath (physicalLine (Text.skipInlineBlanks cs)) →
        logicalEnd (readInclude cs).rest = logicalEnd cs) ∧
      (CutPath (physicalLine (Text.skipInlineBlanks cs)) →
        (∃ fault, (readInclude cs).outcome = .error fault) ∧
          logicalEnd (readInclude cs).rest = physicalEnd cs) := by
  have hblanks := leftOf_skipInlineBlanks cs
  rw [← hblanks.logicalEnd_eq, ← hblanks.physicalEnd_eq]
  unfold readInclude
  generalize Text.skipInlineBlanks cs = text
  split
  · exact ⟨fun _ => rfl, fun h => nomatch h⟩
  · exact ⟨fun _ => rfl, fun h => nomatch h⟩
  · next rest =>
    obtain ⟨hclosed, hopen⟩ := readPath_opened .quoted '"' (by decide) (.inl rfl) rest
    rw [physicalLine_cons rfl]
    refine ⟨fun h => hclosed (by_contra fun hnot => h (.quoted hnot)), fun h => ?_⟩
    cases h with
    | quoted hnot => exact hopen hnot
  · next rest =>
    obtain ⟨hclosed, hopen⟩ := readPath_opened .angled '<' (by decide) (.inr rfl) rest
    rw [physicalLine_cons rfl]
    refine ⟨fun h => hclosed (by_contra fun hnot => h (.angled hnot)), fun h => ?_⟩
    cases h with
    | angled hnot => exact hopen hnot
  · next c rest hnewline hquote hangle =>
    have hmid : isMidLine c = true := by simpa [isMidLine] using hnewline
    rw [physicalLine_cons hmid]
    constructor
    · intro hwhole
      by_cases hslash : c = '\\'
      · subst hslash
        exact (logicalEnd_backslash fun hreturns => hwhole (.backslash hreturns)).symm
      · exact LeftOf.logicalEnd_eq ⟨[c], rfl, List.forall_mem_singleton.2 ⟨hnewline, hslash⟩⟩
    · intro hcut
      cases hcut with
      | quoted => exact absurd rfl hquote
      | angled => exact absurd rfl hangle
      | backslash hreturns =>
        refine ⟨⟨_, rfl⟩, ?_⟩
        exact logicalEnd_of_not_continued (not_continued_of_returns hreturns)

theorem CutPath.head {path : List Char} (h : CutPath path) :
    ∃ c more, path = c :: more ∧ Text.isInlineBlank c = false ∧ Text.isWordPart c = false := by
  cases h with
  | quoted | angled | backslash => exact ⟨_, _, rfl, rfl, rfl⟩

theorem physicalLine_physicalEnd (cs : List Char) : physicalLine (physicalEnd cs) = [] := by
  cases he : physicalEnd cs with
  | nil => rfl
  | cons newline next =>
    obtain rfl := physicalEnd_cons he
    rfl

/-- An include is cut exactly if its path is, behind the word and blanks. -/
theorem cutInclude_iff (cs : List Char) :
    CutInclude (physicalLine cs) ↔
      ∃ rest, Text.word? (Text.skipInlineBlanks cs) = some ("include".toList, rest) ∧
        CutPath (physicalLine (Text.skipInlineBlanks rest)) := by
  constructor
  · rintro ⟨blanks, more, path, hline, hblank, hcut⟩
    obtain ⟨hblanks, hmore⟩ := List.forall_mem_append.1 hblank
    obtain ⟨c, tail, hpath, hnoBlank, hnoPart⟩ := hcut.head
    have hcs : cs = blanks ++ ("include".toList ++ (more ++ (path ++ physicalEnd cs))) := by
      have hsplit := physicalLine_append_physicalEnd cs
      rw [hline] at hsplit
      simpa only [List.append_assoc] using hsplit.symm
    have hword : ∀ d ∈ (more ++ (path ++ physicalEnd cs)).head?, Text.isWordPart d = false := by
      intro d hd
      cases more with
      | nil =>
        rw [hpath] at hd
        cases hd
        exact hnoPart
      | cons b more =>
        cases hd
        exact Text.isWordPart_of_isSpace (by rw [Text.isSpace, hmore d List.mem_cons_self, Bool.true_or])
    have hblankEnd : Text.skipInlineBlanks (more ++ (path ++ physicalEnd cs)) = path ++ physicalEnd cs := by
      rw [Text.skipInlineBlanks, List.dropWhile_append_of_pos hmore, hpath]
      exact List.dropWhile_cons_of_neg (by simp [hnoBlank])
    have hmid : ∀ d ∈ path, isMidLine d = true := by
      intro d hd
      apply isMidLine_of_mem_physicalLine
      rw [hline]
      simp [hd]
    refine ⟨more ++ (path ++ physicalEnd cs), ?_, ?_⟩
    · conv =>
        lhs
        rw [hcs, Text.skipInlineBlanks, List.dropWhile_append_of_pos hblanks]
      exact Text.word?_append rfl (List.all_eq_true.1 rfl) hword
    · rwa [hblankEnd, physicalLine_append hmid, physicalLine_physicalEnd, List.append_nil]
  · rintro ⟨rest, hword, hcut⟩
    have hinclude : ∀ c ∈ "include".toList, isMidLine c = true := List.all_eq_true.1 rfl
    have hblank : ∀ c ∈ cs.takeWhile Text.isInlineBlank ++ rest.takeWhile Text.isInlineBlank,
        Text.isInlineBlank c = true :=
      List.forall_mem_append.2 ⟨fun c => List.mem_takeWhile_imp, fun c => List.mem_takeWhile_imp⟩
    have hmid : ∀ c, Text.isInlineBlank c = true → isMidLine c = true := by
      intro c hc
      have hother : c ≠ '\n' := by
        rintro rfl
        cases hc
      simpa [isMidLine] using hother
    refine ⟨_, _, _, ?_, hblank, hcut⟩
    have hcs := List.takeWhile_append_dropWhile (p := Text.isInlineBlank) (l := cs)
    have hrest := List.takeWhile_append_dropWhile (p := Text.isInlineBlank) (l := rest)
    rw [← Text.skipInlineBlanks, (Text.word?_eq hword).1, ← hrest, ← Text.skipInlineBlanks] at hcs
    obtain ⟨hfirst, hsecond⟩ := List.forall_mem_append.1 hblank
    conv =>
      lhs
      rw [← hcs, physicalLine_append fun c hc => hmid c (hfirst c hc), physicalLine_append hinclude,
        physicalLine_append fun c hc => hmid c (hsecond c hc)]

/-- Reading a directive ends with its logical line, unless it is a cut include, which is rejected and read
to the end of its physical line. -/
theorem read_end (cs : List Char) :
    (¬ CutInclude (physicalLine cs) → (read cs).rest = logicalEnd cs) ∧
      (CutInclude (physicalLine cs) →
        (∃ fault, (read cs).outcome = .error fault) ∧ (read cs).rest = physicalEnd cs) := by
  have hblanks := leftOf_skipInlineBlanks cs
  rw [cutInclude_iff]
  unfold read
  dsimp only
  split
  · next hend =>
    rw [← hblanks.logicalEnd_eq]
    cases hs : Text.skipInlineBlanks cs with
    | nil => exact ⟨fun _ => (logicalEnd_of_nil rfl).symm, fun ⟨_, h, _⟩ => nomatch h⟩
    | cons c text =>
      rw [hs] at hend
      obtain rfl : c = '\n' := beq_iff_eq.1 hend
      exact ⟨fun _ => (logicalEnd_newline text).symm, fun ⟨_, h, _⟩ => nomatch h⟩
  · cases hword : Text.word? (Text.skipInlineBlanks cs) with
    | none =>
      refine ⟨fun _ => ?_, fun ⟨_, h, _⟩ => nomatch h⟩
      exact (logicalLine_rest _).trans hblanks.logicalEnd_eq
    | some x =>
      obtain ⟨name, rest⟩ := x
      have hleft := (leftOf_word hword).trans hblanks
      rw [← hleft.logicalEnd_eq, ← hleft.physicalEnd_eq]
      change (_ → (logicalLine (readNamed (String.ofList name) rest).rest).rest = _) ∧
        (_ → (∃ fault, (readNamed (String.ofList name) rest).outcome = .error fault) ∧
          (logicalLine (readNamed (String.ofList name) rest).rest).rest = _)
      rw [logicalLine_rest]
      by_cases hname : name = "include".toList
      · subst hname
        rw [String.ofList_toList]
        obtain ⟨hwhole, hcut⟩ := readInclude_end rest
        refine ⟨fun h => hwhole fun hpath => h ⟨rest, rfl, hpath⟩, ?_⟩
        rintro ⟨_, heq, hpath⟩
        obtain rfl := (Prod.mk.inj (Option.some.inj heq)).2
        exact hcut hpath
      · have hother : String.ofList name ≠ "include" := by
          intro heq
          rw [← heq, String.toList_ofList] at hname
          exact hname rfl
        refine ⟨fun _ => readNamed_end hother rest, ?_⟩
        rintro ⟨_, heq, -⟩
        exact absurd (Prod.mk.inj (Option.some.inj heq)).1 hname

theorem logicalEnd_suffix (cs : List Char) : logicalEnd cs <:+ cs := by
  fun_induction logicalEnd cs with
  | case1 => exact List.nil_suffix
  | case2 cs newline next hcons _ _ ih =>
    have hnext : newline :: next <:+ cs := hcons ▸ List.dropWhile_suffix isMidLine
    exact ih.trans ((List.suffix_cons newline next).trans hnext)
  | case3 cs newline next hcons _ _ => exact hcons ▸ List.dropWhile_suffix isMidLine

/-- The two ends differ exactly if the physical line is continued and there is a line for it to go on in. -/
theorem physicalEnd_eq_logicalEnd_iff (cs : List Char) :
    physicalEnd cs = logicalEnd cs ↔ ¬ (Continued (physicalLine cs) ∧ '\n' ∈ cs) := by
  have hmem : '\n' ∈ cs ↔ physicalEnd cs ≠ [] := by
    rw [Ne, physicalEnd, List.dropWhile_eq_nil_iff]
    constructor
    · intro h hall
      cases hall _ h
    · intro h
      by_contra hnot
      refine h fun c hc => ?_
      have hother : c ≠ '\n' := fun heq => hnot (heq ▸ hc)
      simpa [isMidLine] using hother
  rw [hmem]
  cases he : physicalEnd cs with
  | nil => simp [logicalEnd_of_nil he]
  | cons newline next =>
    rw [logicalEnd_of_cons he]
    split
    · next hcontinued =>
      refine iff_of_false (fun heq => ?_) fun h => h ⟨hcontinued, List.cons_ne_nil _ _⟩
      have hshort := (logicalEnd_suffix next).length_le
      rw [← heq, List.length_cons] at hshort
      omega
    · next hstops => exact iff_of_true rfl fun h => hstops h.1

/-- A directive is read to the end of its logical line. Only an include whose path is cut by the end of its
physical line stops there, which makes a difference if that line is continued. -/
theorem read_ends_with_logical_line_iff (cs : List Char) :
    let line := physicalLine cs
    ((read cs).rest = logicalEnd cs ↔ ¬ (CutInclude line ∧ Continued line ∧ '\n' ∈ cs)) ∧
      (CutInclude line →
        (∃ fault, (read cs).outcome = .error fault) ∧ (read cs).rest = physicalEnd cs) := by
  intro line
  obtain ⟨hwhole, hcut⟩ := read_end cs
  refine ⟨?_, hcut⟩
  by_cases hinclude : CutInclude line
  · rw [(hcut hinclude).2, physicalEnd_eq_logicalEnd_iff, not_iff_not]
    exact (and_iff_right hinclude).symm
  · exact iff_of_true (hwhole hinclude) fun h => hinclude h.1

/-- A quoted path that is cut by a continued line: the next line is left over. -/
theorem cutPath_leaves_next_line :
    let text := "include \"a\\\nb".toList
    logicalEnd text = [] ∧ (read text).rest = ['\n', 'b'] := by
  constructor <;> cbv

end Directive

end SmallC
