import SmallC.Source.Buffer

/-!
# Definitions

A definition replaces a word by the text of a buffer. A table holds at most one definition for a
name: defining it again replaces what was there.
-/
namespace SmallC

structure Definition where
  name : String
  replacement : Buffer
  deriving DecidableEq

namespace Definition

def body (d : Definition) : String :=
  d.replacement.text

end Definition

structure Definitions where
  entries : List Definition := []
  deriving DecidableEq

namespace Definitions

def get? (t : Definitions) (name : String) : Option Definition :=
  t.entries.find? (·.name == name)

def contains (t : Definitions) (name : String) : Bool :=
  t.entries.any (·.name == name)

def erase (t : Definitions) (name : String) : Definitions :=
  ⟨t.entries.filter (·.name != name)⟩

def insert (t : Definitions) (d : Definition) : Definitions :=
  ⟨d :: (t.erase d.name).entries⟩

def size (t : Definitions) : Nat :=
  t.entries.length

def isEmpty (t : Definitions) : Bool :=
  t.entries.isEmpty

theorem get?_insert_same (t : Definitions) (d : Definition) :
    (t.insert d).get? d.name = some d := by
  simp [insert, get?]

theorem get?_erase_other (t : Definitions) {name other : String} (h : other ≠ name) :
    (t.erase name).get? other = t.get? other := by
  unfold erase get?
  rw [List.find?_filter]
  congr 1
  funext d
  by_cases same : d.name = other
  · simp [same, h]
  · simp [same]

theorem get?_insert_other (t : Definitions) (d : Definition) {name : String} (h : name ≠ d.name) :
    (t.insert d).get? name = t.get? name := by
  have skip : (d.name == name) = false := by simpa using Ne.symm h
  rw [← get?_erase_other t h]
  simp [insert, get?, skip]

theorem get?_erase_same (t : Definitions) (name : String) : (t.erase name).get? name = none := by
  simp [erase, get?]

end Definitions

end SmallC
