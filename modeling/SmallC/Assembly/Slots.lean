/-!
# Slots and labels

The variables of a function live in words below its frame pointer, handed out in the order of
declaration. Labels are numbered, and a counter hands each number out once, up to a limit.
-/
namespace SmallC.Assembly

/-- A way to keep track of the slots of a function. -/
class Layout (Frame : Type) where
  /-- Offset from the frame pointer of a variable that has a slot. -/
  offset? : Frame → String → Option Int
  /-- Gives a variable without a slot the next one. -/
  declare : Frame → String → Frame

/-- The variables that have a slot, the oldest first. -/
structure Slots where
  names : List String := []
  deriving DecidableEq

namespace Slots

/-- Offset from the frame pointer of the slot at a place in the order. -/
def offsetAt (index : Nat) : Int :=
  -4 * (index + 1)

def offset? (s : Slots) (name : String) : Option Int :=
  (s.names.idxOf? name).map offsetAt

/-- Gives a name the next slot; a name that has one keeps it. -/
def declare (s : Slots) (name : String) : Slots :=
  if name ∈ s.names then s else ⟨s.names ++ [name]⟩

/-- The next slot's offset, unless the name has a slot already. -/
def newOffset? (s : Slots) (name : String) : Option Int :=
  if name ∈ s.names then none else some (offsetAt s.names.length)

def size (s : Slots) : Nat :=
  s.names.length

instance : Layout Slots :=
  ⟨offset?, declare⟩

variable {s : Slots} {name other : String}

theorem names_declare (h : name ∉ s.names) : (s.declare name).names = s.names ++ [name] := by
  rw [declare, if_neg h]

theorem size_declare (h : name ∉ s.names) : (s.declare name).size = s.size + 1 := by
  rw [size, names_declare h, List.length_append]
  rfl

theorem offset?_eq_none_iff : s.offset? name = none ↔ name ∉ s.names := by
  rw [offset?, Option.map_eq_none_iff, List.idxOf?_eq_none_iff]

theorem isSome_offset?_iff : (s.offset? name).isSome = true ↔ name ∈ s.names := by
  rw [offset?, Option.isSome_map, List.isSome_idxOf?]

theorem idxOf?_concat (names : List String) (name other : String) :
    (names ++ [name]).idxOf? other =
      (names.idxOf? other).or (if other = name then some names.length else none) := by
  rw [List.idxOf?, List.findIdx?_append]
  congr 1
  by_cases h : other = name
  · simp [h]
  · simp [h, Ne.symm h]

/-- A new variable has the last slot. -/
theorem offset?_declare (h : name ∉ s.names) : (s.declare name).offset? name = some (offsetAt s.size) := by
  rw [offset?, names_declare h, idxOf?_concat, List.idxOf?_eq_none_iff.2 h, if_pos rfl]
  rfl

theorem offset?_declare_other (h : other ≠ name) : (s.declare name).offset? other = s.offset? other := by
  unfold declare
  split
  · rfl
  · rw [offset?, offset?, idxOf?_concat, if_neg h, Option.or_none]

end Slots

structure Labels where
  /-- Labels handed out so far. -/
  count : Nat := 0
  /-- Most labels that may be handed out. -/
  limit : Nat := UInt64.size - 1
  deriving DecidableEq

namespace Labels

def name (number : Nat) : String :=
  "_label" ++ toString number

/-- The next label, while there is one. -/
def fresh? (l : Labels) : Option (String × Labels) :=
  if l.count < l.limit then some (name l.count, { l with count := l.count + 1 }) else none

end Labels

end SmallC.Assembly
