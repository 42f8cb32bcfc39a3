import SmallC.Assembly.Slots

/-!
# Frame tables

A frame table keeps the slots of one function after the other. A name is interned, which gives it a symbol, and
the table takes symbols to offsets from the frame pointer. Offsets are 32-bit words. Between two functions the
slots are forgotten, but the interned names are not.
-/
namespace SmallC.Assembly

/-- A store of names that has a symbol for every name in it. -/
class Interner (Store : Type) (Symbol : outParam Type) where
  empty : Store
  /-- The symbol of a name that is in the store. -/
  symbol? : Store → String → Option Symbol
  /-- The symbol of a name, and the store with the name in it. -/
  intern : Store → String → Symbol × Store

/-- Names in the order in which they came, each with its place for a symbol. -/
structure Numbering where
  names : List String := []

namespace Numbering

def place? (s : Numbering) (name : String) : Option Nat :=
  s.names.idxOf? name

def add (s : Numbering) (name : String) : Nat × Numbering :=
  match s.place? name with
  | some place => (place, s)
  | none => (s.names.length, ⟨s.names ++ [name]⟩)

instance : Interner Numbering Nat :=
  ⟨{}, place?, add⟩

end Numbering

/-- Bytes of one slot. -/
def wordSize : Int32 := 4

structure FrameTable (Store Symbol : Type) where
  /-- The names of all functions so far. -/
  names : Store
  /-- The offsets of this function's variables, the youngest first. -/
  slots : List (Symbol × Int32)
  /-- The offset of the next slot. -/
  next : Int32

namespace FrameTable

variable {Store Symbol : Type} [DecidableEq Symbol] [Interner Store Symbol]

def empty : FrameTable Store Symbol :=
  ⟨Interner.empty, [], -wordSize⟩

/-- Gives a name the next slot and yields its offset, unless the name has a slot. The name is interned in either
case. -/
def declare (t : FrameTable Store Symbol) (name : String) : Option Int32 × FrameTable Store Symbol :=
  let (symbol, names) := Interner.intern t.names name
  if (t.slots.lookup symbol).isSome then (none, { t with names })
  else (some t.next, ⟨names, (symbol, t.next) :: t.slots, t.next - wordSize⟩)

def offset? (t : FrameTable Store Symbol) (name : String) : Option Int32 := do
  let symbol ← Interner.symbol? t.names name
  t.slots.lookup symbol

/-- How many variables have a slot. -/
def size (t : FrameTable Store Symbol) : Nat :=
  t.slots.length

instance : Layout (FrameTable Store Symbol) where
  offset? t name := (t.offset? name).map Int32.toInt
  declare t name := (t.declare name).2

/-- Forgets the slots, for the next function. -/
def reset (t : FrameTable Store Symbol) : FrameTable Store Symbol :=
  { t with slots := [], next := -wordSize }

end FrameTable

end SmallC.Assembly
