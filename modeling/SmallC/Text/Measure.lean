/-!
# Measures of a text

A text is worked on as a list of characters. Offsets into it count UTF-8 bytes and line numbers
count newline characters; both measures add up over concatenation, so an offset is the size of
what stands before it.
-/
namespace SmallC.Text

/-- Bytes that the characters take in UTF-8. -/
def size : List Char → Nat
  | [] => 0
  | c :: cs => c.utf8Size + size cs

/-- Newline characters in the text. -/
def lines (cs : List Char) : Nat :=
  cs.count '\n'

/-- What stands in front of `rest`, which is an end part of `cs`. -/
def before (cs rest : List Char) : List Char :=
  cs.take (cs.length - rest.length)

/-- Drops the longest end part whose characters all satisfy `p`. -/
def dropEndWhile (p : Char → Bool) (cs : List Char) : List Char :=
  (cs.reverse.dropWhile p).reverse

@[simp] theorem size_nil : size [] = 0 := rfl

@[simp] theorem size_cons (c : Char) (cs : List Char) : size (c :: cs) = c.utf8Size + size cs := rfl

@[simp] theorem size_append (cs ds : List Char) : size (cs ++ ds) = size cs + size ds := by
  induction cs with
  | nil => simp
  | cons c cs ih => simp [ih, Nat.add_assoc]

/-- The measure is the byte size of the string with these characters. -/
theorem size_eq_utf8ByteSize (cs : List Char) : size cs = (String.ofList cs).utf8ByteSize := by
  induction cs with
  | nil => rfl
  | cons c cs ih =>
    have cut : String.ofList (c :: cs) = String.singleton c ++ String.ofList cs := by
      rw [String.singleton_eq_ofList, ← String.ofList_append]
      rfl
    rw [size_cons, ih, cut, String.utf8ByteSize_append, String.utf8ByteSize_singleton]

@[simp] theorem lines_append (cs ds : List Char) : lines (cs ++ ds) = lines cs + lines ds := by
  simp [lines]

@[simp] theorem before_append (cs rest : List Char) : before (cs ++ rest) rest = cs := by
  simp [before]

theorem lines_eq_zero_iff {cs : List Char} : lines cs = 0 ↔ '\n' ∉ cs :=
  List.count_eq_zero

/-- Going over `n` newlines of `cs` leaves `rest`. -/
def Leaves (cs : List Char) (n : Nat) (rest : List Char) : Prop :=
  ∃ read, cs = read ++ rest ∧ lines read = n

section Leaves

variable {cs rest more : List Char} {n m : Nat}

theorem leaves_refl (cs : List Char) : Leaves cs 0 cs :=
  ⟨[], rfl, rfl⟩

theorem Leaves.trans (h : Leaves cs n rest) (h' : Leaves rest m more) : Leaves cs (n + m) more := by
  obtain ⟨first, rfl, rfl⟩ := h
  obtain ⟨second, rfl, rfl⟩ := h'
  exact ⟨first ++ second, (List.append_assoc ..).symm, lines_append first second⟩

theorem Leaves.before_eq (h : Leaves cs n rest) : cs = before cs rest ++ rest ∧ lines (before cs rest) = n := by
  obtain ⟨read, rfl, rfl⟩ := h
  rw [before_append]
  exact ⟨rfl, rfl⟩

theorem Leaves.length_le (h : Leaves cs n rest) : rest.length ≤ cs.length := by
  obtain ⟨read, rfl, -⟩ := h
  rw [List.length_append]
  omega

theorem leaves_of_append {read : List Char} (h : '\n' ∉ read) (rest : List Char) : Leaves (read ++ rest) 0 rest :=
  ⟨read, rfl, lines_eq_zero_iff.2 h⟩

theorem leaves_cons {c : Char} (h : c ≠ '\n') (cs : List Char) : Leaves (c :: cs) 0 cs :=
  leaves_of_append (List.not_mem_cons_of_ne_of_not_mem h.symm List.not_mem_nil) cs

theorem leaves_newline (cs : List Char) : Leaves ('\n' :: cs) 1 cs :=
  ⟨['\n'], rfl, rfl⟩

/-- Skipping characters that are no newlines. -/
theorem leaves_dropWhile {p : Char → Bool} (hp : p '\n' = false) (cs : List Char) :
    Leaves cs 0 (cs.dropWhile p) := by
  induction cs with
  | nil => exact leaves_refl []
  | cons c cs ih =>
    cases hc : p c with
    | false =>
      rw [List.dropWhile_cons_of_neg (by simp [hc])]
      exact leaves_refl (c :: cs)
    | true =>
      have hother : c ≠ '\n' := by
        rintro rfl
        exact absurd (hc.symm.trans hp) (by decide)
      rw [List.dropWhile_cons_of_pos hc]
      exact (leaves_cons hother cs).trans ih

end Leaves

end SmallC.Text
