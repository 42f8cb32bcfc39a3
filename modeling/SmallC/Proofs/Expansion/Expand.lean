import Mathlib.Logic.Function.Basic
import SmallC.Proofs.Expansion.Pieces

/-!
# Preprocessing by recursion

What a buffer comes to, said without a stack of suspended buffers: its pieces are gone through in order,
and an include or a defined word is replaced by what the included text or the replacement comes to.
Definitions are threaded through, so that a directive tells on everything that is read after it, in
whatever buffer. The words being replaced are hidden, and the depth bounds the recursion.
-/
namespace SmallC.Expansion

/-- What words stand for at some point of the reading, and how many buffers there are by then. -/
structure Table where
  replacement : String → Option Buffer := fun _ => none
  registered : Nat

namespace Table

def define (t : Table) (name body : String) : Table where
  replacement :=
    Function.update t.replacement name (some ⟨t.registered, .replacement name, body⟩)
  registered := t.registered + 1

def undefine (t : Table) (name : String) : Table :=
  { t with replacement := Function.update t.replacement name none }

theorem define_same (t : Table) (name body : String) :
    (t.define name body).replacement name = some ⟨t.registered, .replacement name, body⟩ :=
  Function.update_self ..

theorem define_other (t : Table) {name other : String} (body : String) (h : other ≠ name) :
    (t.define name body).replacement other = t.replacement other :=
  Function.update_of_ne h ..

theorem undefine_same (t : Table) (name : String) : (t.undefine name).replacement name = none :=
  Function.update_self ..

theorem undefine_other (t : Table) {name other : String} (h : other ≠ name) :
    (t.undefine name).replacement other = t.replacement other :=
  Function.update_of_ne h ..

/-- What a token stands for, if it can stand for something else. -/
def lookup (t : Table) (word : Token) : Option Buffer :=
  if word.kind.isWord then t.replacement word.lexeme else none

/-- The buffer that a file which is read next becomes. -/
def fileBuffer (t : Table) (path : Path) (text : String) : Buffer :=
  ⟨t.registered, .file path, text⟩

def register (t : Table) : Table :=
  { t with registered := t.registered + 1 }

end Table

/-- The file that an include means: the first that can be loaded in the directories it is looked up
in. -/
def includedFile (load : Path → Option String) (settings : Settings) (directory : Path)
    (path : String) (style : IncludeStyle) : Option (Path × String) :=
  let dirs :=
    match style with
    | .quoted => directory :: settings.includeDirs
    | .angled => settings.includeDirs
  dirs.findSome? fun dir => (load (dir.join ⟨path⟩)).map fun text => (dir.join ⟨path⟩, text)

def nestingMessage (settings : Settings) : String :=
  "include and macro nesting exceeds " ++ toString settings.maxDepth ++ " levels"

mutual

/-- The tokens that a piece comes to, and the table after it. Quoted includes are looked up in
`directory` first. -/
def expandPiece (load : Path → Option String) (settings : Settings) (hidden : List String)
    (depth : Nat) (directory : Path) (piece : Piece) (t : Table) : List Token × Table :=
  match piece with
  | .token word =>
    match t.lookup word with
    | none => ([word], t)
    | some buffer =>
      if word.lexeme ∈ hidden then ([word], t)
      else if depth < settings.maxDepth then
        expand load settings (word.lexeme :: hidden) (depth + 1) directory
          (Frame.start buffer directory).pieces t
      else ([.invalid (nestingMessage settings) word.pos], t)
  | .directive pos (.error fault) => ([.invalid fault.message pos], t)
  | .directive _ (.ok .nothing) => ([], t)
  | .directive _ (.ok (.define name body)) => ([], t.define name body)
  | .directive _ (.ok (.undefine name)) => ([], t.undefine name)
  | .directive pos (.ok (.insert path style)) =>
    if depth < settings.maxDepth then
      match includedFile load settings directory path style with
      | none => ([.invalid ("unable to read file '" ++ path ++ "'") pos], t)
      | some (found, text) =>
        expand load settings hidden (depth + 1) found.directory
          (Frame.start (t.fileBuffer found text) found.directory).pieces t.register
    else ([.invalid (nestingMessage settings) pos], t)
termination_by (settings.maxDepth - depth, 0)

/-- The tokens that the pieces of a buffer come to, one after the other. -/
def expand (load : Path → Option String) (settings : Settings) (hidden : List String) (depth : Nat)
    (directory : Path) (pieces : List Piece) (t : Table) : List Token × Table :=
  match pieces with
  | [] => ([], t)
  | piece :: more =>
    let (tokens, t) := expandPiece load settings hidden depth directory piece t
    let (rest, t) := expand load settings hidden depth directory more t
    (tokens ++ rest, t)
termination_by (settings.maxDepth - depth, pieces.length)

end

end SmallC.Expansion
