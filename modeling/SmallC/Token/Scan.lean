import SmallC.Text.Blank
import SmallC.Text.Word
import SmallC.Token

/-!
# Scanning one token

Scanning first skips a gap, the longest run of white space and comments, and then takes the longest
token. A block comment that is never closed is not part of a gap: its slash is a character that
starts no token.
-/
namespace SmallC.Scan

/-- Splits after the first `*/`. -/
def closeComment? : List Char → Option (List Char × List Char)
  | [] => none
  | '*' :: '/' :: rest => some (['*', '/'], rest)
  | c :: cs => (closeComment? cs).map fun (body, rest) => (c :: body, rest)

/-- One piece of a gap: a run of white space, a line comment without its newline, or a closed block
comment. -/
def piece? : List Char → Option (List Char × List Char)
  | '/' :: '/' :: cs => some ('/' :: '/' :: cs.takeWhile (· ≠ '\n'), cs.dropWhile (· ≠ '\n'))
  | '/' :: '*' :: cs => (closeComment? cs).map fun (body, rest) => ('/' :: '*' :: body, rest)
  | c :: cs =>
    if Text.isSpace c then some (c :: cs.takeWhile Text.isSpace, cs.dropWhile Text.isSpace)
    else none
  | [] => none

theorem closeComment?_eq {cs body rest : List Char} (h : closeComment? cs = some (body, rest)) :
    cs = body ++ rest := by
  fun_induction closeComment? cs generalizing body rest with
  | case1 => simp at h
  | case2 tail =>
    obtain ⟨rfl, rfl⟩ := Prod.mk.inj (Option.some.inj h)
    rfl
  | case3 c cs _ ih =>
    obtain ⟨⟨b, r⟩, hr, he⟩ := Option.map_eq_some_iff.1 h
    obtain ⟨rfl, rfl⟩ := Prod.mk.inj he
    simp [ih hr]

theorem piece?_eq {cs piece rest : List Char} (h : piece? cs = some (piece, rest)) :
    cs = piece ++ rest ∧ piece ≠ [] := by
  unfold piece? at h
  split at h
  · obtain ⟨rfl, rfl⟩ := Prod.mk.inj (Option.some.inj h)
    simp
  · obtain ⟨⟨b, r⟩, hr, he⟩ := Option.map_eq_some_iff.1 h
    obtain ⟨rfl, rfl⟩ := Prod.mk.inj he
    simp [closeComment?_eq hr]
  · split at h
    · obtain ⟨rfl, rfl⟩ := Prod.mk.inj (Option.some.inj h)
      simp
    · simp at h
  · simp at h

theorem piece?_length {cs piece rest : List Char} (h : piece? cs = some (piece, rest)) :
    rest.length < cs.length := by
  obtain ⟨rfl, nonempty⟩ := piece?_eq h
  have := List.length_pos_iff.2 nonempty
  simp
  omega

/-- The gap that a text starts with, and what follows it. -/
def gap (cs : List Char) : List Char × List Char :=
  match h : piece? cs with
  | none => ([], cs)
  | some (piece, rest) =>
    have := piece?_length h
    let (more, after) := gap rest
    (piece ++ more, after)
termination_by cs.length

theorem gap_eq (cs : List Char) : cs = (gap cs).1 ++ (gap cs).2 := by
  fun_induction gap cs with
  | case1 => rfl
  | case2 cs piece rest h _ more after hg ih =>
    rw [hg] at ih
    rw [List.append_assoc, ← ih]
    exact (piece?_eq h).1

/-- The gap is as long as it can be. -/
theorem piece?_gap (cs : List Char) : piece? (gap cs).2 = none := by
  fun_induction gap cs with
  | case1 cs h => exact h
  | case2 cs piece rest h _ more after hg ih => rwa [hg] at ih

/-- What a scan finds behind a gap. -/
inductive Item where
  | finish
  | token (kind : Kind) (lexeme rest : List Char)
  | invalid (c : Char) (rest : List Char)

/-- The longest token that the text starts with. -/
def token? (cs : List Char) : Option (Kind × List Char × List Char) :=
  match Text.word? cs with
  | some (word, rest) => some (Kind.ofWord (String.ofList word), word, rest)
  | none =>
    match cs with
    | [] => none
    | '/' :: '*' :: _ => none
    | c :: tail =>
      if c.isDigit then
        some (.number, c :: tail.takeWhile Char.isDigit, tail.dropWhile Char.isDigit)
      else
        (Punctuator.longest? cs).map fun p =>
          (.punct p, p.spelling.toList, cs.drop p.spelling.toList.length)

/-- What stands at the start of a text that has no gap in front. -/
def item (cs : List Char) : Item :=
  match cs with
  | [] => .finish
  | c :: tail =>
    match token? cs with
    | some (kind, lexeme, rest) => .token kind lexeme rest
    | none => .invalid c tail

theorem spelling_ne_nil (p : Punctuator) : p.spelling.toList ≠ [] := by
  cases p <;> decide

theorem token?_eq {cs lexeme rest : List Char} {kind : Kind}
    (h : token? cs = some (kind, lexeme, rest)) : cs = lexeme ++ rest ∧ lexeme ≠ [] := by
  unfold token? at h
  split at h
  · next word tail hw =>
    obtain ⟨-, hl, hr⟩ := by simpa using h
    subst hl hr
    exact Text.word?_eq hw
  · split at h
    · simp at h
    · simp at h
    · split at h
      · obtain ⟨-, rfl, rfl⟩ := by simpa using h
        simp
      · obtain ⟨p, hp, he⟩ := Option.map_eq_some_iff.1 h
        obtain ⟨-, rfl, rfl⟩ := by simpa using he
        have starts := List.find?_some hp
        rw [List.isPrefixOf_iff_prefix] at starts
        obtain ⟨tail, ht⟩ := starts
        refine ⟨?_, spelling_ne_nil p⟩
        rw [← ht]
        simp

/-- Tokens do not go on in the next line. -/
theorem newline_notMem_token {cs lexeme rest : List Char} {kind : Kind}
    (h : token? cs = some (kind, lexeme, rest)) : '\n' ∉ lexeme := by
  unfold token? at h
  split at h
  · next word tail hw =>
    obtain ⟨-, rfl, -⟩ := by simpa using h
    exact Text.newline_notMem_word hw
  · split at h
    · simp at h
    · simp at h
    · split at h
      · next c tail _ _ hdigit =>
        obtain ⟨-, rfl, -⟩ := by simpa using h
        have hdigits : ∀ d ∈ c :: tail.takeWhile Char.isDigit, d.isDigit = true :=
          List.forall_mem_cons.2 ⟨hdigit, List.all_eq_true.1 List.all_takeWhile⟩
        exact fun hmem => nomatch hdigits _ hmem
      · obtain ⟨p, -, he⟩ := Option.map_eq_some_iff.1 h
        obtain ⟨-, rfl, -⟩ := by simpa using he
        cases p <;> decide

theorem item_token_length {cs lexeme rest : List Char} {kind : Kind}
    (h : item cs = .token kind lexeme rest) : rest.length < cs.length := by
  unfold item at h
  split at h
  · simp at h
  · split at h
    · next ht =>
      obtain ⟨rfl, rfl, rfl⟩ := by simpa using h
      obtain ⟨he, nonempty⟩ := token?_eq ht
      have := List.length_pos_iff.2 nonempty
      rw [he, List.length_append]
      omega
    · simp at h

theorem item_invalid_length {cs rest : List Char} {c : Char} (h : item cs = .invalid c rest) :
    rest.length < cs.length := by
  unfold item at h
  split at h
  · simp at h
  · split at h
    · simp at h
    · obtain ⟨rfl, rfl⟩ := by simpa using h
      simp

theorem gap_length (cs : List Char) : (gap cs).2.length ≤ cs.length := by
  have h := congrArg List.length (gap_eq cs)
  rw [List.length_append] at h
  omega

end SmallC.Scan
