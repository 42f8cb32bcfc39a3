import Mathlib.Data.String.Basic
import SmallC.Source.Buffer
import SmallC.Source.Position
import SmallC.Text.Measure

/-!
# Places in a text

A position says where a piece of text stands by two byte offsets and a line. `Position.LiesIn` is what makes
it point at something: the offsets are boundaries between characters of the text, and as many newline bytes
stand in front of the first one as the line says. Both are said of the bytes of the text; the lemmas here
derive them from a text that is cut into characters.
-/
namespace SmallC

namespace SourceFile

/-- The text that a span stands for. -/
def slice (file : SourceFile) (span : Span) : String :=
  String.Pos.Raw.extract file.text ⟨span.start⟩ ⟨span.stop⟩

/-- Newline bytes in front of an offset. -/
def newlinesBefore (file : SourceFile) (offset : Nat) : Nat :=
  (file.text.toByteArray.data.toList.take offset).count 10

end SourceFile

structure Position.LiesIn (pos : Position) (file : SourceFile) : Prop where
  ordered : pos.span.start ≤ pos.span.stop
  within : pos.span.stop ≤ file.text.utf8ByteSize
  startBoundary : String.Pos.Raw.IsValid file.text ⟨pos.span.start⟩
  stopBoundary : String.Pos.Raw.IsValid file.text ⟨pos.span.stop⟩
  line : pos.line = file.newlinesBefore pos.span.start

namespace Text

theorem size_eq_utf8Len (cs : List Char) : size cs = String.utf8Len cs := by
  rw [size_eq_utf8ByteSize, String.utf8ByteSize_ofList]

theorem length_encode (cs : List Char) : (cs.flatMap String.utf8EncodeChar).length = size cs := by
  induction cs with
  | nil => rfl
  | cons c cs ih => rw [List.flatMap_cons, List.length_append, String.length_utf8EncodeChar, ih, size_cons]

/-- The byte of a newline is no part of the code of another character. -/
theorem count_newline_encodeChar (c : Char) :
    (String.utf8EncodeChar c).count 10 = [c].count '\n' := by
  by_cases hc : c = '\n'
  · subst hc
    rfl
  · have hvalue : c.val.toNat ≠ 10 := fun h => hc (Char.ext (UInt32.toNat_inj.1 h))
    have habsent : (10 : UInt8) ∉ String.utf8EncodeChar c := by
      have hbyte (n : Nat) (h : n % 256 ≠ 10) : (10 : UInt8) ≠ UInt8.ofNat n := by
        intro heq
        have hn := congrArg UInt8.toNat heq
        rw [UInt8.toNat_ofNat'] at hn
        exact h hn.symm
      unfold String.utf8EncodeChar
      dsimp only
      split
      · simp only [List.mem_singleton]
        exact hbyte _ (by omega)
      · split
        · simp only [List.mem_cons, List.not_mem_nil, or_false, not_or]
          exact ⟨hbyte _ (by omega), hbyte _ (by omega)⟩
        · split
          · simp only [List.mem_cons, List.not_mem_nil, or_false, not_or]
            exact ⟨hbyte _ (by omega), hbyte _ (by omega), hbyte _ (by omega)⟩
          · simp only [List.mem_cons, List.not_mem_nil, or_false, not_or]
            exact ⟨hbyte _ (by omega), hbyte _ (by omega), hbyte _ (by omega), hbyte _ (by omega)⟩
    rw [List.count_eq_zero.2 habsent, List.count_singleton, if_neg (by simpa using hc)]

theorem count_newline_encode (cs : List Char) :
    (cs.flatMap String.utf8EncodeChar).count 10 = lines cs := by
  induction cs with
  | nil => rfl
  | cons c cs ih =>
    rw [List.flatMap_cons, List.count_append, ih, count_newline_encodeChar, lines, lines,
      ← List.count_append, List.singleton_append]

end Text

namespace SourceFile

variable {file : SourceFile} {before spanned after : List Char}

theorem bytes_eq (file : SourceFile) :
    file.text.toByteArray.data.toList = file.text.toList.flatMap String.utf8EncodeChar := by
  conv_lhs => rw [← String.ofList_toList (s := file.text), String.toByteArray_ofList]
  rw [List.utf8Encode, List.data_toByteArray, List.toList_toArray]

theorem newlinesBefore_eq (h : file.text.toList = before ++ after) :
    file.newlinesBefore (Text.size before) = Text.lines before := by
  rw [newlinesBefore, bytes_eq, h, List.flatMap_append, ← Text.length_encode, List.take_left,
    Text.count_newline_encode]

theorem boundary_of_append (h : file.text.toList = before ++ after) :
    String.Pos.Raw.IsValid file.text ⟨Text.size before⟩ := by
  refine String.Pos.Raw.isValid_iff_exists_append.2 ⟨.ofList before, .ofList after, ?_, ?_⟩
  · rw [← String.ofList_append, ← h, String.ofList_toList]
  · rw [String.rawEndPos_ofList, Text.size_eq_utf8Len]

theorem slice_eq (h : file.text.toList = before ++ spanned ++ after) :
    file.slice ⟨Text.size before, Text.size before + Text.size spanned⟩ = .ofList spanned := by
  rw [slice, ← String.ofList_toList (s := file.text), h, Text.size_eq_utf8Len, Text.size_eq_utf8Len]
  exact String.extract_of_valid before spanned after

end SourceFile

/-- What stands between two parts of a text lies in it. -/
theorem Position.liesIn_of_append {file : SourceFile} {before spanned after : List Char}
    (h : file.text.toList = before ++ spanned ++ after) (buffer : Nat) :
    LiesIn ⟨buffer, Text.lines before, ⟨Text.size before, Text.size before + Text.size spanned⟩⟩ file := by
  have hstart : file.text.toList = before ++ (spanned ++ after) := by rw [h, List.append_assoc]
  have hsize : file.text.utf8ByteSize = Text.size before + Text.size spanned + Text.size after := by
    rw [← Text.size_append, ← Text.size_append, ← h, Text.size_eq_utf8ByteSize, String.ofList_toList]
  refine ⟨Nat.le_add_right _ _, ?_, SourceFile.boundary_of_append hstart, ?_, ?_⟩
  · rw [hsize]
    exact Nat.le_add_right _ _
  · rw [← Text.size_append]
    exact SourceFile.boundary_of_append h
  · exact (SourceFile.newlinesBefore_eq hstart).symm

end SmallC
