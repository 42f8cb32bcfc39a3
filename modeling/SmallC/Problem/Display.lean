import SmallC.Problem
import SmallC.Text.Measure
import SmallC.Text.Properties

/-!
# Printed problems

Three styles: nothing, one line, or a snippet of the source with the span underlined. A snippet
shows the line that holds the first byte of the span; tabs are widened to the next multiple of four
columns.
-/
namespace SmallC

inductive Style where
  | silent
  | plain
  | rich
  deriving DecidableEq

namespace Snippet

/-- The line that an offset falls into: its number from zero and its text with the newline, then the
offset from its start. The last line takes every offset past its start. -/
def lineAt (number : Nat) (cs : List Char) (offset : Nat) : Nat × List Char × Nat :=
  let line := cs.takeWhile (· ≠ '\n')
  match h : cs.dropWhile (· ≠ '\n') with
  | [] => (number, line, offset)
  | newline :: rest =>
    have : rest.length < cs.length := by
      have := (List.dropWhile_sublist (l := cs) (· ≠ '\n')).length_le
      rw [h] at this
      simp only [List.length_cons] at this
      omega
    let length := Text.size line + 1
    if offset < length then (number, line ++ [newline], offset)
    else lineAt (number + 1) rest (offset - length)
termination_by cs.length

/-- Characters of a line that end at the byte `offset` or before it; one that the offset falls inside is
not counted. -/
def charsBefore : List Char → Nat → Nat
  | [], _ => 0
  | c :: cs, offset =>
    if c.utf8Size ≤ offset then 1 + charsBefore cs (offset - c.utf8Size) else 0

/-- A character with its byte offset in the line and the columns it takes. -/
structure Cell where
  char : Char
  offset : Nat
  width : Nat

/-- Lays the characters of a line out from a byte offset and a column on. -/
def cells (offset column : Nat) : List Char → List Cell
  | [] => []
  | c :: cs =>
    let width := if c = '\t' then 4 - column % 4 else Text.columns c
    ⟨c, offset, width⟩ :: cells (offset + c.utf8Size) (column + width) cs

def spread (n : Nat) (c : Char) : String :=
  String.ofList (List.replicate n c)

def Cell.text (cell : Cell) : String :=
  if cell.char = '\t' then spread cell.width ' ' else cell.char.toString

/-- What stands under a cell when the bytes from `start` up to `stop` are underlined. -/
def Cell.mark (start stop : Nat) (cell : Cell) : String :=
  if cell.offset < stop ∧ start < cell.offset + cell.char.utf8Size then spread cell.width '^'
  else if cell.offset < stop then spread cell.width ' '
  else ""

def isLineEnd (c : Char) : Bool :=
  c == '\n' || c == '\r' || c == '\x00'

/-- The snippet for a span of a registered text. -/
def render (title message : String) (file : SourceFile) (span : Span) : String :=
  let (number, line, start) := lineAt 0 file.text.toList span.start
  let stop := max (start + 1) (start + span.length)
  let shown := Text.dropEndWhile isLineEnd line
  let row := cells 0 0 shown
  let number := toString (number + 1)
  let margin := spread number.length ' '
  let marks := (row ++ [(⟨' ', Text.size shown, 1⟩ : Cell)]).map (Cell.mark start stop)
  let column := charsBefore line start + 1
  "error: " ++ title ++ "\n"
    ++ margin ++ " ┌─ " ++ file.name ++ ":" ++ number ++ ":" ++ toString column ++ "\n"
    ++ margin ++ " │\n"
    ++ number ++ " │ " ++ String.join (row.map Cell.text) ++ "\n"
    ++ margin ++ " │ " ++ String.join marks ++ (if message == "" then "" else " " ++ message) ++ "\n"
    ++ "\n"

end Snippet

namespace Problem

def plainLine (p : Problem) : String :=
  match p.position? with
  | some pos => toString pos.line ++ ": error: " ++ p.message ++ ".\n"
  | none => "error: " ++ p.message ++ ".\n"

/-- The rich form; nothing is shown for a buffer that is not registered. -/
def richText (files : List SourceFile) (p : Problem) : String :=
  match p.position? with
  | none => "error: " ++ p.kind.title ++ ": " ++ p.message ++ "\n\n"
  | some pos =>
    match files[pos.buffer]? with
    | some file => Snippet.render p.kind.title p.message file pos.span
    | none => ""

def render (style : Style) (files : List SourceFile) (p : Problem) : String :=
  match style with
  | .silent => ""
  | .plain => p.plainLine
  | .rich => p.richText files

def renderAll (style : Style) (files : List SourceFile) (ps : List Problem) : String :=
  String.join (ps.map (render style files))

end Problem

end SmallC
