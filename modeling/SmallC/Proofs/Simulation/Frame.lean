import SmallC.Assembly.Slots
import SmallC.Proofs.Machine.Arithmetic

/-!
# The frame of a function

While a function runs, its variables stand in words below its frame pointer, and below them the
temporaries of the expression being evaluated. `Represents` ties such a machine state to the state of
the evaluator. `Keeps` says what evaluating an expression leaves alone: the temporaries already there,
and everything from the frame pointer on.
-/
namespace SmallC.Simulation

open Assembly Machine

/-- Address of a variable by its place in the order of declaration. -/
def slotAddress (ebp : Word) (index : Nat) : Word :=
  ebp + BitVec.ofInt 32 (Slots.offsetAt index)

theorem slotAddress_toNat {ebp : Word} {index : Nat} (h : 4 * (index + 1) ≤ ebp.toNat) :
    (slotAddress ebp index).toNat + 4 * (index + 1) = ebp.toNat := by
  have hlt := ebp.isLt
  unfold slotAddress Slots.offsetAt
  rw [BitVec.toNat_add, BitVec.toNat_ofInt]
  omega

/-- The machine state stands for `env`: `depth` words lie below the frame pointer, the variables
first. -/
structure Represents (slots : Slots) (base depth : Nat) (env : Env) (s : State) : Prop where
  frame : s.ebp.toNat = base
  top : s.esp.toNat + 4 * depth = base
  above : base + 4 ≤ 2 ^ 32
  size_le : slots.size ≤ depth
  accumulator : s.eax = env.accumulator
  values : ∀ name, env.values name =
    (slots.names.idxOf? name).map fun i => s.memory.load (slotAddress s.ebp i)

/-- What lies between the variables and the top of the stack, and from the frame pointer on, is the
same in both states. -/
def Keeps (slots : Slots) (base depth : Nat) (s t : State) : Prop :=
  ∀ a : Word, base ≤ a.toNat + 4 * depth → a.toNat + 4 * slots.size < base ∨ base ≤ a.toNat →
    t.memory a = s.memory a

theorem idxOf?_lt {names : List String} {name : String} {i : Nat}
    (h : names.idxOf? name = some i) : i < names.length :=
  (List.idxOf?_eq_some_iff.1 h).1

/-- Two names do not share a slot. -/
theorem idxOf?_inj {names : List String} {name other : String} {i : Nat}
    (h : names.idxOf? name = some i) (h' : names.idxOf? other = some i) : name = other := by
  obtain ⟨_, hn, -⟩ := List.idxOf?_eq_some_iff.1 h
  obtain ⟨_, hn', -⟩ := List.idxOf?_eq_some_iff.1 h'
  exact hn.symm.trans hn'

namespace Keeps

variable {slots : Slots} {base depth : Nat} {s t u : State}

theorem of_memory_eq (h : t.memory = s.memory) : Keeps slots base depth s t :=
  fun a _ _ => congrFun h a

theorem trans (h : Keeps slots base depth s t) (h' : Keeps slots base depth t u) :
    Keeps slots base depth s u :=
  fun a ha hb => (h' a ha hb).trans (h a ha hb)

/-- Leaving more temporaries alone is more than is asked. -/
theorem shallower (h : Keeps slots base (depth + 1) s t) : Keeps slots base depth s t :=
  fun a ha hb => h a (by omega) hb

/-- A word that is read unchanged: the temporaries, and the words from the frame pointer on. -/
theorem load_eq (h : Keeps slots base depth s t) {a : Word} (ha : a.toNat + 4 ≤ 2 ^ 32)
    (hd : base ≤ a.toNat + 4 * depth)
    (hs : a.toNat + 4 + 4 * slots.size ≤ base ∨ base ≤ a.toNat) :
    t.memory.load a = s.memory.load a := by
  apply Memory.load_congr ha
  intro b hb hb'
  exact h b (by omega) (by omega)

end Keeps

namespace Represents

variable {slots : Slots} {base depth : Nat} {env : Env} {s t : State}

theorem room (h : Represents slots base depth env s) {i : Nat} (hi : i < slots.size) :
    4 * (i + 1) ≤ s.ebp.toNat := by
  have hf := h.frame
  have ht := h.top
  have hs := h.size_le
  omega

/-- The slot of a variable as numbers. -/
theorem address (h : Represents slots base depth env s) {i : Nat} (hi : i < slots.size) :
    (slotAddress s.ebp i).toNat + 4 * (i + 1) = base :=
  (slotAddress_toNat (h.room hi)).trans h.frame

theorem lookup (h : Represents slots base depth env s) {name : String} {i : Nat}
    (hi : slots.names.idxOf? name = some i) :
    env.lookup name = .ok (s.memory.load (slotAddress s.ebp i)) := by
  unfold Env.lookup
  rw [h.values name, hi, Option.map_some]

/-- Work in the registers only sets the accumulator. -/
theorem of_sameStack (h : Represents slots base depth env s) (hs : SameStack s t) :
    Represents slots base depth (env.yield t.eax) t := by
  constructor
  · rw [hs.ebp, h.frame]
  · rw [hs.esp, h.top]
  · exact h.above
  · exact h.size_le
  · rfl
  · intro name
    rw [hs.memory, hs.ebp]
    exact h.values name

/-- A store to a slot gives its variable a new value and leaves the others theirs. -/
theorem assign (h : Represents slots base depth env s) {name : String} {i : Nat}
    (hi : slots.names.idxOf? name = some i) (v : Word) (hesp : t.esp = s.esp) (hebp : t.ebp = s.ebp)
    (hm : t.memory = s.memory.store (slotAddress s.ebp i) v) :
    Represents slots base depth ((env.bind name v).yield t.eax) t ∧ Keeps slots base depth s t := by
  have hlt : i < slots.size := idxOf?_lt hi
  have ha := h.address hlt
  have hbase := h.above
  refine ⟨⟨?_, ?_, hbase, h.size_le, rfl, ?_⟩, ?_⟩
  · rw [hebp, h.frame]
  · rw [hesp, h.top]
  · intro other
    rw [hebp, hm]
    by_cases ho : other = name
    · subst ho
      rw [hi, Option.map_some, Memory.load_store_same]
      exact Function.update_self ..
    · have hv : ((env.bind name v).yield t.eax).values other = env.values other :=
        Function.update_of_ne ho ..
      rw [hv, h.values other]
      cases hj : slots.names.idxOf? other with
      | none => rw [Option.map_none, Option.map_none]
      | some j =>
        have hne : j ≠ i := by
          rintro rfl
          exact ho (idxOf?_inj hj hi)
        have hb := h.address (idxOf?_lt hj)
        rw [Option.map_some, Option.map_some,
          s.memory.load_store_other v (by omega) (by omega) (by omega)]
  · intro a had haw
    rw [hm]
    have hsize : i + 1 ≤ slots.size := hlt
    exact s.memory.store_outside v (by omega) (by omega)

/-- A push adds a temporary, which is then on top. -/
theorem push (h : Represents slots base depth env s) (hroom : 4 * (depth + 1) ≤ base) {v : Word}
    (hesp : t.esp = s.esp - 4#32) (hebp : t.ebp = s.ebp)
    (hm : t.memory = s.memory.store (s.esp - 4#32) v) (ha : t.eax = s.eax) :
    Represents slots base (depth + 1) env t ∧ Keeps slots base depth s t ∧
      t.memory.load t.esp = v := by
  have htop := h.top
  have hs := h.size_le
  have hbase := h.above
  have hnew : (s.esp - 4#32).toNat + 4 = s.esp.toNat := by bv_omega
  refine ⟨⟨?_, ?_, hbase, Nat.le_succ_of_le hs, ?_, ?_⟩, ?_, ?_⟩
  · rw [hebp, h.frame]
  · rw [hesp]
    omega
  · rw [ha, h.accumulator]
  · intro name
    rw [h.values name, hm, hebp]
    cases hi : slots.names.idxOf? name with
    | none => rw [Option.map_none, Option.map_none]
    | some i =>
      have hlt : i + 1 ≤ slots.size := idxOf?_lt hi
      have haddr := h.address hlt
      rw [Option.map_some, Option.map_some,
        s.memory.load_store_other v (by omega) (by omega) (by omega)]
  · intro a had haw
    rw [hm, s.memory.store_outside v (by omega) (by omega)]
  · rw [hm, hesp, Memory.load_store_same]

/-- A pop takes the newest temporary off. -/
theorem pop (h : Represents slots base (depth + 1) env s) (hs : slots.size ≤ depth)
    (hesp : t.esp = s.esp + 4#32) (hebp : t.ebp = s.ebp) (hm : t.memory = s.memory)
    (ha : t.eax = s.eax) : Represents slots base depth env t := by
  have htop := h.top
  have hbase := h.above
  refine ⟨?_, ?_, hbase, hs, ?_, ?_⟩
  · rw [hebp, h.frame]
  · rw [hesp]
    bv_omega
  · rw [ha, h.accumulator]
  · intro name
    rw [hm, hebp]
    exact h.values name

/-- The word on top becomes the slot of a new variable. -/
theorem declare (h : Represents slots base (slots.size + 1) env s) {name : String}
    (hn : name ∉ slots.names) :
    Represents (slots.declare name) base (slots.declare name).size
      (env.bind name (s.memory.load s.esp)) s := by
  have hd : slots.declare name = ⟨slots.names ++ [name]⟩ := if_neg hn
  have hsize : (slots.declare name).size = slots.size + 1 := by
    rw [hd, Slots.size, List.length_append]
    rfl
  rw [hsize]
  refine ⟨h.frame, h.top, h.above, Nat.le_of_eq hsize, h.accumulator, ?_⟩
  intro other
  rw [hd, List.idxOf?, List.findIdx?_append]
  by_cases ho : other = name
  · subst ho
    have hnone : slots.names.findIdx? (· == other) = none := List.idxOf?_eq_none_iff.2 hn
    have haddr : s.esp = slotAddress s.ebp slots.size := by
      have htop := h.top
      have hf := h.frame
      have ha : (slotAddress s.ebp slots.size).toNat + 4 * (slots.size + 1) = s.ebp.toNat :=
        slotAddress_toNat (by omega)
      exact BitVec.eq_of_toNat_eq (by omega)
    rw [hnone, haddr]
    simp [Env.bind, Slots.size]
  · have hv : (env.bind name (s.memory.load s.esp)).values other = env.values other :=
      Function.update_of_ne ho ..
    have hnew : [name].findIdx? (· == other) = none := by
      simp [Ne.symm ho]
    rw [hv, h.values other, hnew, Option.map_none, Option.or_none]
    rfl

end Represents

end SmallC.Simulation
