/-!
# Paths

A path is text with `/` between its parts. Two paths are the same file name when their parts agree:
repeated and trailing slashes and every `.` but a leading one are left out, and `..` is kept as it is.
Joining and taking the directory work on the text, so what was written is what is shown.
-/
namespace SmallC

/-- A text cut at every separator: one piece more than there are separators, and pieces may be empty. -/
def Text.pieces (sep : Char) : List Char → List (List Char)
  | [] => [[]]
  | c :: cs =>
    if c = sep then [] :: pieces sep cs
    else
      match pieces sep cs with
      | [] => [[c]]
      | piece :: more => (c :: piece) :: more

structure Path where
  text : String
  deriving DecidableEq

namespace Path

/-- One part of a path. -/
inductive Part where
  | root
  | here
  | up
  | name (text : String)
  deriving DecidableEq

/-- The text between slashes, empty pieces included. -/
def pieces (text : String) : List String :=
  (Text.pieces '/' text.toList).map String.ofList

def isAbsolute (p : Path) : Bool :=
  p.text.toList.head? == some '/'

/-- A piece that does not count as a part: empty, or `.` past the beginning. -/
def isIdle (piece : String) : Bool :=
  piece == "" || piece == "."

def partOfPiece (piece : String) : Part :=
  if piece == ".." then .up else .name piece

/-- The parts that decide which file a path names. -/
def parts (p : Path) : List Part :=
  let counted := ((pieces p.text).filter (!isIdle ·)).map partOfPiece
  if p.isAbsolute then .root :: counted
  else if (pieces p.text).head? == some "." then .here :: counted
  else counted

/-- `p` seen from the directory `dir`. -/
def join (dir p : Path) : Path :=
  if p.isAbsolute || dir.text == "" then p
  else if dir.text.toList.getLast? == some '/' then ⟨dir.text ++ p.text⟩
  else ⟨dir.text ++ "/" ++ p.text⟩

def dropIdleEnd (ps : List String) : List String :=
  (ps.reverse.dropWhile isIdle).reverse

/-- The text that a path starts with before its first piece: the root, or a leading `.`, with the
pieces after it. -/
def splitLead (p : Path) : String × List String :=
  match pieces p.text with
  | "" :: ps => if p.isAbsolute then ("/", ps) else ("", "" :: ps)
  | "." :: ps => (".", if ps.isEmpty then [] else "" :: ps)
  | ps => ("", ps)

/-- The path without its last part; `none` for the empty path and the root. -/
def parent? (p : Path) : Option Path :=
  let (lead, ps) := p.splitLead
  match dropIdleEnd ps with
  | [] => if lead == "." then some ⟨""⟩ else none
  | kept => some ⟨lead ++ String.intercalate "/" (dropIdleEnd kept.dropLast)⟩

/-- Where includes of the file `p` are looked up first. -/
def directory (p : Path) : Path :=
  p.parent?.getD ⟨"."⟩

/-- What follows the last dot of the file name, unless the name only starts with that dot. -/
def extension? (p : Path) : Option String :=
  match p.parts.getLast? with
  | some (.name file) =>
    match (Text.pieces '.' file.toList).reverse with
    | ext :: stem :: more =>
      if more.isEmpty && stem.isEmpty then none else some (String.ofList ext)
    | _ => none
  | _ => none

end Path

end SmallC
