import SmallC.Text.Blank
import SmallC.Text.Word

/-!
# Directives

A directive is what follows a `#` that stands first on its line. It takes its whole logical line: a
line that ends in a backslash, carriage returns aside, goes on in the next one. The newline that ends
the logical line is left to the text that follows. A directive that cannot be read takes what is left
of its line all the same.
-/
namespace SmallC

/-- How an include names its file. -/
inductive IncludeStyle where
  | quoted
  | angled
  deriving DecidableEq

inductive Directive where
  | insert (path : String) (style : IncludeStyle)
  | define (name body : String)
  | undefine (name : String)
  | nothing
  deriving DecidableEq

namespace Directive

/-- Why a directive was rejected. -/
inductive Fault where
  | noName
  | unknown (name : String)
  | noPath
  | noPathOpening
  | noPathEnd
  | emptyPath
  | noDefinedName
  | functionLike
  deriving DecidableEq

def Fault.message : Fault → String
  | .noName => "expected preprocessor directive name"
  | .unknown name => "unknown preprocessor directive '#" ++ name ++ "'"
  | .noPath => "expected include path"
  | .noPathOpening => "expected '\"' or '<' before include path"
  | .noPathEnd => "expected end of include path"
  | .emptyPath => "empty include path"
  | .noDefinedName => "expected macro name"
  | .functionLike => "function-like macros are not supported"

/-- A directive that was read, or why it was rejected, and the text after it. -/
structure Reading where
  outcome : Except Fault Directive
  rest : List Char
  /-- Newlines that were gone over, each hidden by a backslash. -/
  newlines : Nat

def atLineEnd : List Char → Bool
  | [] => true
  | c :: _ => c == '\n'

def isMidLine (c : Char) : Bool :=
  c != '\n'

/-- The rest of a physical line without the carriage returns at its end. -/
def lineText (cs : List Char) : List Char :=
  Text.dropEndWhile (· == '\r') (cs.takeWhile isMidLine)

theorem length_dropWhile_le (p : Char → Bool) (cs : List Char) :
    (cs.dropWhile p).length ≤ cs.length :=
  (List.dropWhile_sublist p).length_le

theorem length_skipInlineBlanks_lt {cs next : List Char} {c : Char}
    (h : cs.dropWhile isMidLine = c :: next) : (Text.skipInlineBlanks next).length < cs.length := by
  have shorter := length_dropWhile_le isMidLine cs
  have blanks := length_dropWhile_le Text.isInlineBlank next
  simp only [h, List.length_cons] at shorter
  unfold Text.skipInlineBlanks
  omega

/-- The physical line ends where a newline stands. -/
theorem eq_newline_of_dropWhile {cs next : List Char} {c : Char} (h : cs.dropWhile isMidLine = c :: next) :
    c = '\n' := by
  have hhead := List.head?_dropWhile_not isMidLine cs
  rw [h] at hhead
  simpa [isMidLine] using hhead

/-- What is left of a logical line. -/
structure LogicalLine where
  text : List Char
  /-- The text from the newline that ends the line on. -/
  rest : List Char
  /-- Newlines inside the line. -/
  newlines : Nat

/-- The rest of a logical line. A backslash and the newline it hides become one newline, and blanks after
it are dropped. A backslash at the very end is dropped. -/
def logicalLine (cs : List Char) : LogicalLine :=
  if (lineText cs).getLast? = some '\\' then
    match h : cs.dropWhile isMidLine with
    | [] => ⟨(lineText cs).dropLast, [], 0⟩
    | _ :: next =>
      have := length_skipInlineBlanks_lt h
      let more := logicalLine (Text.skipInlineBlanks next)
      ⟨(lineText cs).dropLast ++ '\n' :: more.text, more.rest, more.newlines + 1⟩
  else ⟨lineText cs, cs.dropWhile isMidLine, 0⟩
termination_by cs.length

/-- Reads a path between delimiters. -/
def readPath (style : IncludeStyle) (close : Char) (cs : List Char) : Reading :=
  let path := cs.takeWhile fun c => c != close && c != '\n'
  match cs.dropWhile fun c => c != close && c != '\n' with
  | [] => ⟨.error .noPathEnd, [], 0⟩
  | c :: rest =>
    if c != close then ⟨.error .noPathEnd, c :: rest, 0⟩
    else if path.isEmpty then ⟨.error .emptyPath, rest, 0⟩
    else ⟨.ok (.insert (String.ofList path) style), rest, 0⟩

def readInclude (cs : List Char) : Reading :=
  match Text.skipInlineBlanks cs with
  | [] => ⟨.error .noPath, [], 0⟩
  | '\n' :: rest => ⟨.error .noPath, '\n' :: rest, 0⟩
  | '"' :: rest => readPath .quoted '"' rest
  | '<' :: rest => readPath .angled '>' rest
  | _ :: rest => ⟨.error .noPathOpening, rest, 0⟩

def readDefine (cs : List Char) : Reading :=
  match Text.word? (Text.skipInlineBlanks cs) with
  | none => ⟨.error .noDefinedName, Text.skipInlineBlanks cs, 0⟩
  | some (_, '(' :: rest) => ⟨.error .functionLike, '(' :: rest, 0⟩
  | some (name, rest) =>
    let line := logicalLine (Text.skipInlineBlanks rest)
    ⟨.ok (.define (String.ofList name) (String.ofList (Text.trimEnd line.text))), line.rest, line.newlines⟩

def readUndefine (cs : List Char) : Reading :=
  match Text.word? (Text.skipInlineBlanks cs) with
  | none => ⟨.error .noDefinedName, Text.skipInlineBlanks cs, 0⟩
  | some (name, rest) => ⟨.ok (.undefine (String.ofList name)), rest, 0⟩

/-- Reads what the name of a directive asks for. -/
def readNamed (name : String) (cs : List Char) : Reading :=
  match name with
  | "include" => readInclude cs
  | "define" => readDefine cs
  | "undef" => readUndefine cs
  | _ => ⟨.error (.unknown name), cs, 0⟩

/-- Leaves out what is left of the logical line. -/
def Reading.endLine (r : Reading) : Reading :=
  let line := logicalLine r.rest
  { r with rest := line.rest, newlines := r.newlines + line.newlines }

/-- Reads the directive whose text starts just after the `#`. -/
def read (cs : List Char) : Reading :=
  let text := Text.skipInlineBlanks cs
  if atLineEnd text then ⟨.ok .nothing, text, 0⟩
  else
    match Text.word? text with
    | none => Reading.endLine ⟨.error .noName, text, 0⟩
    | some (name, rest) => (readNamed (String.ofList name) rest).endLine

open Text (Leaves leaves_cons leaves_dropWhile leaves_newline leaves_of_append leaves_refl)

theorem skipInlineBlanks_leaves (cs : List Char) : Leaves cs 0 (Text.skipInlineBlanks cs) :=
  leaves_dropWhile rfl cs

theorem word_leaves {cs word rest : List Char} (h : Text.word? cs = some (word, rest)) : Leaves cs 0 rest := by
  rw [(Text.word?_eq h).1]
  exact leaves_of_append (Text.newline_notMem_word h) rest

theorem logicalLine_leaves (cs : List Char) : Leaves cs (logicalLine cs).newlines (logicalLine cs).rest := by
  have hend (cs : List Char) : Leaves cs 0 (cs.dropWhile isMidLine) := leaves_dropWhile rfl cs
  fun_induction logicalLine cs with
  | case1 cs _ hnil => exact hnil ▸ hend cs
  | case2 cs _ newline next hcons _ more ih =>
    obtain rfl := eq_newline_of_dropWhile hcons
    have hnext := (hcons ▸ hend cs).trans (leaves_newline next)
    have hmore := (skipInlineBlanks_leaves next).trans ih
    rw [Nat.zero_add] at hmore
    rw [Nat.add_comm]
    exact hnext.trans hmore
  | case3 cs => exact hend cs

theorem readPath_leaves (style : IncludeStyle) (close : Char) (hclose : close ≠ '\n') (cs : List Char) :
    Leaves cs (readPath style close cs).newlines (readPath style close cs).rest := by
  have hend : Leaves cs 0 (cs.dropWhile fun c => c != close && c != '\n') := leaves_dropWhile (by simp) cs
  unfold readPath
  dsimp only
  split
  · next hnil => exact hnil ▸ hend
  · next c rest hcons =>
    rw [hcons] at hend
    split
    · exact hend
    · next hsame =>
      obtain rfl : c = close := by simpa using hsame
      have hrest : Leaves cs 0 rest := hend.trans (leaves_cons hclose rest)
      split <;> exact hrest

theorem readInclude_leaves (cs : List Char) : Leaves cs (readInclude cs).newlines (readInclude cs).rest := by
  have hblanks := skipInlineBlanks_leaves cs
  unfold readInclude
  generalize Text.skipInlineBlanks cs = text at hblanks
  split
  · exact hblanks
  · exact hblanks
  · next rest =>
    have hquote : Leaves ('"' :: rest) 0 rest := leaves_cons (by decide) rest
    have hpath := hquote.trans (readPath_leaves .quoted '"' (by decide) rest)
    simpa only [Nat.zero_add] using hblanks.trans hpath
  · next rest =>
    have hangle : Leaves ('<' :: rest) 0 rest := leaves_cons (by decide) rest
    have hpath := hangle.trans (readPath_leaves .angled '>' (by decide) rest)
    simpa only [Nat.zero_add] using hblanks.trans hpath
  · next c rest hnewline _ _ => exact hblanks.trans (leaves_cons hnewline rest)

theorem readDefine_leaves (cs : List Char) : Leaves cs (readDefine cs).newlines (readDefine cs).rest := by
  have hblanks := skipInlineBlanks_leaves cs
  unfold readDefine
  split
  · exact hblanks
  · next h => exact hblanks.trans (word_leaves h)
  · next rest _ h =>
    have hline := (skipInlineBlanks_leaves rest).trans (logicalLine_leaves (Text.skipInlineBlanks rest))
    simpa only [Nat.zero_add] using (hblanks.trans (word_leaves h)).trans hline

theorem readUndefine_leaves (cs : List Char) :
    Leaves cs (readUndefine cs).newlines (readUndefine cs).rest := by
  have hblanks := skipInlineBlanks_leaves cs
  unfold readUndefine
  split
  · exact hblanks
  · next h => exact hblanks.trans (word_leaves h)

theorem readNamed_leaves (name : String) (cs : List Char) :
    Leaves cs (readNamed name cs).newlines (readNamed name cs).rest := by
  unfold readNamed
  split
  · exact readInclude_leaves cs
  · exact readDefine_leaves cs
  · exact readUndefine_leaves cs
  · exact leaves_refl cs

theorem Reading.endLine_leaves {r : Reading} {cs : List Char} (h : Leaves cs r.newlines r.rest) :
    Leaves cs r.endLine.newlines r.endLine.rest :=
  h.trans (logicalLine_leaves r.rest)

/-- What a directive leaves is an end part of the text, and the newlines in front of it are counted. -/
theorem read_leaves (cs : List Char) : Leaves cs (read cs).newlines (read cs).rest := by
  have hblanks := skipInlineBlanks_leaves cs
  unfold read
  dsimp only
  split
  · exact hblanks
  · split
    · exact Reading.endLine_leaves hblanks
    · next name rest h =>
      have hnamed := (hblanks.trans (word_leaves h)).trans (readNamed_leaves (String.ofList name) rest)
      simp only [Nat.zero_add] at hnamed
      exact Reading.endLine_leaves hnamed

end Directive

end SmallC
