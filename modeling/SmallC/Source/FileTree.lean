import SmallC.Source.Path

/-!
# File trees

A directory tree of byte files, as seen from the directory that a program runs in. Paths are
followed piece by piece: each piece but the last has to be a directory, and `..` leads to the
directory above. What lies outside the tree is known to be a directory and nothing more.
-/
namespace SmallC

/-- Why a file could not be read or written. -/
inductive FileError where
  | notFound
  | notDirectory
  | isDirectory
  | notText
  | other (message : String)
  deriving DecidableEq

def FileError.message : FileError → String
  | .notFound => "No such file or directory (os error 2)"
  | .notDirectory => "Not a directory (os error 20)"
  | .isDirectory => "Is a directory (os error 21)"
  | .notText => "stream did not contain valid UTF-8"
  | .other message => message

/-- Files under the names that lead to them; every name but the last is a directory. -/
structure FileTree where
  files : List (List String × ByteArray) := []

namespace FileTree

/-- Where a path leads. -/
inductive Place where
  | directory (names : List String)
  | file (content : ByteArray)
  | outside

def content? (t : FileTree) (names : List String) : Option ByteArray :=
  (t.files.find? fun file => file.1 == names).map (·.2)

/-- A directory is there if a file lies below it. -/
def hasDirectory (t : FileTree) (names : List String) : Bool :=
  names.isEmpty || t.files.any fun file => names.isPrefixOf file.1 && file.1 != names

/-- What stands under `names`. -/
def place (t : FileTree) (names : List String) : Except FileError Place :=
  match t.content? names with
  | some content => .ok (.file content)
  | none => if t.hasDirectory names then .ok (.directory names) else .error .notFound

/-- Follows one piece of a path. -/
def follow (t : FileTree) (place : Place) (piece : String) : Except FileError Place :=
  match place with
  | .file _ => .error .notDirectory
  | .outside => if Path.isIdle piece || piece == ".." then .ok .outside else .error .notFound
  | .directory names =>
    if Path.isIdle piece then .ok (.directory names)
    else if piece == ".." then
      .ok (if names.isEmpty then .outside else .directory names.dropLast)
    else t.place (names ++ [piece])

def followAll (t : FileTree) (start : Place) (pieces : List String) : Except FileError Place :=
  pieces.foldlM t.follow start

/-- Where a path starts from. -/
def origin (p : Path) : Place :=
  if p.isAbsolute then .outside else .directory []

def read (t : FileTree) (p : Path) : Except FileError String := do
  if p.text == "" then .error .notFound
  match ← t.followAll (origin p) (Path.pieces p.text) with
  | .file content =>
    match String.fromUTF8? content with
    | some text => .ok text
    | none => .error .notText
  | _ => .error .isDirectory

def put (t : FileTree) (names : List String) (content : ByteArray) : FileTree :=
  ⟨(names, content) :: t.files.filter (·.1 != names)⟩

/-- Files given by relative paths; a later file of the same name replaces an earlier one. -/
def ofList (files : List (Path × ByteArray)) : FileTree :=
  files.foldl (fun t (path, content) =>
    t.put ((Path.pieces path.text).filter (!Path.isIdle ·)) content) {}

/-- The pieces end in a slash or in dots, so they can only name a directory. -/
def namesDirectory (pieces : List String) : Bool :=
  match pieces.getLast? with
  | some last => Path.isIdle last || last == ".."
  | none => true

/-- Creates or overwrites a file. The directory it is to lie in has to be there, and the path must not
be one that can only name a directory. A file outside the tree is written without a trace in it. -/
def write (t : FileTree) (p : Path) (text : String) : Except FileError FileTree := do
  if p.text == "" then .error .notFound
  let pieces := Path.pieces p.text
  match pieces.reverse.dropWhile (· == "") with
  | [] => .error .isDirectory
  | last :: above =>
    let parent ← t.followAll (origin p) above.reverse
    match parent, namesDirectory pieces with
    | .file _, _ => .error .notDirectory
    | _, true => .error .isDirectory
    | .outside, false => .ok t
    | .directory names, false =>
      match t.place (names ++ [last]) with
      | .ok (.directory _) => .error .isDirectory
      | _ => .ok (t.put (names ++ [last]) text.toUTF8)

/-- Files of `after` that `before` does not hold with the same content, sorted by path. -/
def changes (before after : FileTree) : List (String × ByteArray) :=
  let changed := after.files.filter fun file => before.content? file.1 != some file.2
  (changed.map fun file => (String.intercalate "/" file.1, file.2)).mergeSort
    fun a b => decide (a.1 ≤ b.1)

end FileTree

end SmallC
