import SmallC.Text.Measure

/-!
# Blank characters

Three classes of blank are told apart: the characters skipped between tokens, the ones skipped
inside a directive line (the same without the newline), and Unicode white space, which is cut off
the end of a replacement text.
-/
namespace SmallC.Text

/-- Skipped inside a directive line: space, tab, carriage return, form feed, vertical tab. -/
def isInlineBlank (c : Char) : Bool :=
  c == ' ' || c == '\t' || c == '\r' || c == '\x0c' || c == '\x0b'

/-- Skipped between tokens. -/
def isSpace (c : Char) : Bool :=
  isInlineBlank c || c == '\n'

/-- The code point ranges with the Unicode property `White_Space`, ends included. -/
def whiteSpaceRanges : List (Nat × Nat) :=
  [(0x09, 0x0d), (0x20, 0x20), (0x85, 0x85), (0xa0, 0xa0), (0x1680, 0x1680), (0x2000, 0x200a),
    (0x2028, 0x2029), (0x202f, 0x202f), (0x205f, 0x205f), (0x3000, 0x3000)]

/-- Has the Unicode property `White_Space`. -/
def isWhiteSpace (c : Char) : Bool :=
  whiteSpaceRanges.any fun (low, high) => low ≤ c.toNat && c.toNat ≤ high

def skipInlineBlanks (cs : List Char) : List Char :=
  cs.dropWhile isInlineBlank

/-- Cuts white space off the end. -/
def trimEnd (cs : List Char) : List Char :=
  dropEndWhile isWhiteSpace cs

end SmallC.Text
