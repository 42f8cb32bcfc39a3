import Mathlib.Algebra.Group.Nat.Defs
import Mathlib.Data.List.Basic

/-!
# Byte memory

The memory of a 32-bit machine: a byte under every address, and words of four bytes, the lowest byte
first. Words may start at any address. The lemmas speak of words that end inside the address space, so
that whether two of them overlap is a question about numbers.
-/
namespace SmallC.Machine

abbrev Word := BitVec 32

abbrev Memory := Word → BitVec 8

namespace Memory

/-- The word that starts at an address. -/
def load (m : Memory) (a : Word) : Word :=
  m (a + 3#32) ++ m (a + 2#32) ++ m (a + 1#32) ++ m a

def byteOf (v : Word) (i : Nat) : BitVec 8 :=
  v.extractLsb' (8 * i) 8

/-- Puts a word at an address; the four bytes may wrap round the end of the address space. -/
def store (m : Memory) (a v : Word) : Memory :=
  fun b => if (b - a).toNat < 4 then byteOf v (b - a).toNat else m b

theorem append_byteOf (v : Word) :
    byteOf v 3 ++ byteOf v 2 ++ byteOf v 1 ++ byteOf v 0 = v := by
  ext i hi
  simp [byteOf]
  grind

theorem store_apply (m : Memory) (a v : Word) {i : Nat} (hi : i < 4) :
    m.store a v (a + BitVec.ofNat 32 i) = byteOf v i := by
  have hd : (a + BitVec.ofNat 32 i - a).toNat = i := by bv_omega
  unfold store
  rw [hd, if_pos hi]

theorem store_outside (m : Memory) {a b : Word} (v : Word) (ha : a.toNat + 4 ≤ 2 ^ 32)
    (h : b.toNat < a.toNat ∨ a.toNat + 4 ≤ b.toNat) : m.store a v b = m b := by
  have hd : ¬ (b - a).toNat < 4 := by bv_omega
  unfold store
  rw [if_neg hd]

theorem load_store_same (m : Memory) (a v : Word) : (m.store a v).load a = v := by
  have h0 : m.store a v a = byteOf v 0 := by simpa using m.store_apply a v (i := 0) (by decide)
  unfold load
  rw [m.store_apply a v (i := 3) (by decide), m.store_apply a v (i := 2) (by decide),
    m.store_apply a v (i := 1) (by decide), h0]
  exact append_byteOf v

/-- A word is read off its own four bytes. -/
theorem load_congr {m m' : Memory} {a : Word} (ha : a.toNat + 4 ≤ 2 ^ 32)
    (h : ∀ b : Word, a.toNat ≤ b.toNat → b.toNat < a.toNat + 4 → m' b = m b) :
    m'.load a = m.load a := by
  unfold load
  rw [h (a + 3#32) (by bv_omega) (by bv_omega), h (a + 2#32) (by bv_omega) (by bv_omega),
    h (a + 1#32) (by bv_omega) (by bv_omega), h a (by omega) (by omega)]

theorem load_store_other (m : Memory) {a b : Word} (v : Word) (ha : a.toNat + 4 ≤ 2 ^ 32)
    (hb : b.toNat + 4 ≤ 2 ^ 32) (h : a.toNat + 4 ≤ b.toNat ∨ b.toNat + 4 ≤ a.toNat) :
    (m.store a v).load b = m.load b := by
  apply load_congr hb
  intro c _ _
  exact m.store_outside v ha (by omega)

end Memory

end SmallC.Machine
