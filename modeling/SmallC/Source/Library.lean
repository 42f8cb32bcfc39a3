import SmallC.Source.Path

/-!
# Libraries of named texts

A library holds texts under paths and finds a text by the parts of its path. The text put in last
under a path is the one that is found.
-/
namespace SmallC

structure Library where
  entries : List (Path × String) := []

namespace Library

def insert (l : Library) (path : Path) (text : String) : Library :=
  ⟨(path, text) :: l.entries⟩

def ofList (files : List (Path × String)) : Library :=
  files.foldl (fun l (path, text) => l.insert path text) {}

def get? (l : Library) (path : Path) : Option String :=
  (l.entries.find? fun entry => entry.1.parts == path.parts).map (·.2)

/-- What is said of a path that the library does not hold. -/
def missing (path : Path) : String :=
  path.text ++ " not found"

end Library

end SmallC
