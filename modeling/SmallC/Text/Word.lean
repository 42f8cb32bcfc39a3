import SmallC.Text.Blank

/-!
# Words

A word is what a name or a keyword looks like: an ASCII letter or underscore, then ASCII letters,
digits and underscores.
-/
namespace SmallC.Text

def isWordStart (c : Char) : Bool :=
  c.isAlpha || c == '_'

def isWordPart (c : Char) : Bool :=
  c.isAlphanum || c == '_'

/-- The longest word the text starts with, and what follows it. -/
def word? : List Char → Option (List Char × List Char)
  | [] => none
  | c :: cs =>
    if isWordStart c then some (c :: cs.takeWhile isWordPart, cs.dropWhile isWordPart) else none

theorem word?_eq {cs word rest : List Char} (h : word? cs = some (word, rest)) :
    cs = word ++ rest ∧ word ≠ [] := by
  unfold word? at h
  split at h
  · simp at h
  · split at h
    · obtain ⟨rfl, rfl⟩ := Prod.mk.inj (Option.some.inj h)
      simp
    · simp at h

theorem isWordPart_of_isWordStart {c : Char} (h : isWordStart c = true) : isWordPart c = true := by
  simp only [isWordStart, isWordPart, Char.isAlphanum, Bool.or_eq_true] at h ⊢
  rcases h with h | h
  · exact .inl (.inl h)
  · exact .inr h

theorem isWordPart_of_mem_word {cs word rest : List Char} (h : word? cs = some (word, rest)) :
    ∀ c ∈ word, isWordPart c = true := by
  unfold word? at h
  split at h
  · cases h
  · split at h
    · next hstart =>
      obtain ⟨rfl, -⟩ := Prod.mk.inj (Option.some.inj h)
      exact List.forall_mem_cons.2
        ⟨isWordPart_of_isWordStart hstart, List.all_eq_true.1 List.all_takeWhile⟩
    · cases h

theorem newline_notMem_word {cs word rest : List Char} (h : word? cs = some (word, rest)) : '\n' ∉ word :=
  fun hmem => nomatch isWordPart_of_mem_word h _ hmem

theorem isWordPart_of_isSpace {c : Char} (h : isSpace c = true) : isWordPart c = false := by
  simp only [isSpace, isInlineBlank, Bool.or_eq_true, beq_iff_eq] at h
  rcases h with ((((rfl | rfl) | rfl) | rfl) | rfl) | rfl <;> rfl

/-- A word ends in front of anything that is no part of one. -/
theorem word?_append {c : Char} {cs rest : List Char} (hc : isWordStart c = true)
    (hcs : ∀ d ∈ cs, isWordPart d = true) (hrest : ∀ d ∈ rest.head?, isWordPart d = false) :
    word? (c :: cs ++ rest) = some (c :: cs, rest) := by
  have hstop : rest.takeWhile isWordPart = [] ∧ rest.dropWhile isWordPart = rest := by
    cases rest with
    | nil => exact ⟨rfl, rfl⟩
    | cons d rest => simp [hrest d rfl]
  rw [List.cons_append, word?, if_pos hc, List.takeWhile_append_of_pos hcs,
    List.dropWhile_append_of_pos hcs, hstop.1, hstop.2, List.append_nil]

end SmallC.Text
