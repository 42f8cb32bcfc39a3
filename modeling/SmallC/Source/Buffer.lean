import SmallC.Source.Path

/-!
# Source buffers

Every text that tokens are read from is a buffer: a file, or the replacement of a name that was
defined. Buffers are numbered in the order in which they are registered.
-/
namespace SmallC

/-- Where the text of a buffer comes from. -/
inductive Origin where
  | file (path : Path)
  | replacement (name : String)
  deriving DecidableEq

structure Buffer where
  id : Nat
  origin : Origin
  text : String
  deriving DecidableEq

namespace Buffer

/-- Length in bytes. -/
def size (b : Buffer) : Nat :=
  b.text.utf8ByteSize

def isEmpty (b : Buffer) : Bool :=
  b.text.isEmpty

def isFile (b : Buffer) : Bool :=
  match b.origin with
  | .file _ => true
  | .replacement _ => false

/-- The name that the buffer replaces. -/
def name? (b : Buffer) : Option String :=
  match b.origin with
  | .file _ => none
  | .replacement name => some name

/-- Where quoted includes in the buffer are looked up first. -/
def directory? (b : Buffer) : Option Path :=
  match b.origin with
  | .file path => some path.directory
  | .replacement _ => none

end Buffer

/-- A registered buffer as diagnostics show it. -/
structure SourceFile where
  name : String
  text : String
  deriving DecidableEq

end SmallC
