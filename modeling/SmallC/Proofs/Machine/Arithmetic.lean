import SmallC.Lowering.Expression
import SmallC.Proofs.Machine.Reach
import SmallC.Proofs.Meaning

/-!
# The code of operators

What the machine computes for an operator is what the operator means: the flags of a comparison decide
it as signed numbers, a double-word division of a sign-extended word is the division of words and
traps where that has no result, and the code of an arithmetic operator leaves the result in the
accumulator and touches neither memory nor the stack registers.
-/
namespace SmallC.Machine

open Assembly

/-- The two states have the same stack and memory. -/
structure SameStack (s t : State) : Prop where
  esp : t.esp = s.esp
  ebp : t.ebp = s.ebp
  memory : t.memory = s.memory

theorem sign_ne_overflow_iff (a b : Word) :
    ((a - b).msb != a.ssubOverflow b) = decide (a.toInt < b.toInt) := by
  have hsub : (a - b).toInt = (a.toInt - b.toInt).bmod (2 ^ 32) := BitVec.toInt_sub
  have ha := a.toInt_lt
  have hb := b.toInt_lt
  have ha' := a.le_toInt
  have hb' := b.le_toInt
  rw [BitVec.msb_eq_toInt, BitVec.ssubOverflow, hsub, Bool.eq_iff_iff, bne_iff_ne, ne_eq,
    Bool.eq_iff_iff]
  simp only [decide_eq_true_eq, Bool.or_eq_true, Int.bmod]
  omega

theorem holds_compare (op : CompareOp) (a b : Word) :
    (Flags.compare a b).holds op.condition = op.holds a b := by
  have hlt := sign_ne_overflow_iff a b
  have heq : (a == b) = decide (a.toInt = b.toInt) := by
    rw [Bool.eq_iff_iff]
    simp [BitVec.toInt_inj]
  cases op with
  | eq => rfl
  | ne => rfl
  | lt => exact hlt
  | le =>
    have : (Flags.compare a b).holds .lessEqual = (a == b || (a - b).msb != a.ssubOverflow b) := rfl
    rw [CompareOp.condition, this, hlt, heq, Bool.eq_iff_iff]
    simp only [CompareOp.holds, Bool.or_eq_true, decide_eq_true_eq]
    omega
  | gt =>
    have : (Flags.compare a b).holds .greater = (!(a == b) && !((a - b).msb != a.ssubOverflow b)) := by
      simp [Flags.holds, Flags.compare, bne]
    rw [CompareOp.condition, this, hlt, heq, Bool.eq_iff_iff]
    simp only [CompareOp.holds, Bool.and_eq_true, Bool.not_eq_true', decide_eq_false_iff_not,
      decide_eq_true_eq]
    omega
  | ge =>
    have : (Flags.compare a b).holds .greaterEqual = !((a - b).msb != a.ssubOverflow b) := by
      simp [Flags.holds, Flags.compare, bne]
    rw [CompareOp.condition, this, hlt, Bool.eq_iff_iff]
    simp only [CompareOp.holds, Bool.not_eq_true', decide_eq_false_iff_not, decide_eq_true_eq]
    omega

/-- The double word that `cdq` makes of a word is the same number. -/
theorem toInt_signExtended (a : Word) : (signWord a ++ a).toInt = a.toInt := by
  rw [signWord, BitVec.toInt_append, if_neg (by decide)]
  have hn := a.toInt_eq_msb_cond
  cases hm : a.msb with
  | true =>
    have h1 : (-1#32 : Word).toInt = -1 := by decide
    rw [hm] at hn
    simp only [if_true] at hn ⊢
    rw [h1, hn]
    omega
  | false =>
    rw [hm] at hn
    simpa using hn.symm

theorem divisible_iff (a b : Word) :
    divisible a b = true ↔ b ≠ 0#32 ∧ (a ≠ BitVec.intMin 32 ∨ b ≠ -1#32) := by
  simp only [divisible, Bool.and_eq_true, bne_iff_ne, Bool.not_eq_true', Bool.and_eq_false_iff,
    beq_eq_false_iff_ne]

theorem divide?_of_divisible {s : State} {a b : Word} (hd : (s.edx ++ s.eax).toInt = a.toInt)
    (h : divisible a b = true) :
    s.divide? b = some { s with eax := a.sdiv b, edx := a.srem b } := by
  obtain ⟨hb, hne⟩ := (divisible_iff a b).1 h
  have hq := BitVec.toInt_sdiv_of_ne_or_ne a b hne
  have hlt := (a.sdiv b).toInt_lt
  have hle := (a.sdiv b).le_toInt
  unfold State.divide?
  dsimp only
  rw [hd, ← hq, ← BitVec.toInt_srem]
  have hfits : ¬ (b = 0#32 ∨ (a.sdiv b).toInt < -2 ^ 31 ∨ 2 ^ 31 ≤ (a.sdiv b).toInt) := by
    simp only [hb, false_or]
    omega
  simp only [if_neg hfits, BitVec.ofInt_toInt]

theorem divide?_of_not_divisible {s : State} {a b : Word} (hd : (s.edx ++ s.eax).toInt = a.toInt)
    (h : ¬ divisible a b = true) : s.divide? b = none := by
  unfold State.divide?
  dsimp only
  rw [hd]
  apply if_pos
  by_cases hb : b = 0#32
  · exact .inl hb
  · refine .inr (.inr ?_)
    rw [divisible_iff] at h
    obtain ⟨rfl, rfl⟩ : a = BitVec.intMin 32 ∧ b = -1#32 := by
      simpa [hb] using h
    decide

/-- The low five bits of `%cl` are those of `%ecx`. -/
theorem count_mod (c : Word) : (c &&& 0xff#32).toNat % 32 = c.toNat % 32 := by
  have : (c &&& 0xff#32).toNat = c.toNat % 2 ^ 8 := by
    rw [BitVec.toNat_and]
    exact Nat.and_two_pow_sub_one_eq_mod c.toNat 8
  omega

namespace Image

variable (p : Image) {s : State}

theorem execAll_division (h : divisible s.eax s.ebx = true) :
    ∃ t, p.execAll [.cdq, .idivl (.reg .ebx)] s = .running t ∧
      t.eax = s.eax.sdiv s.ebx ∧ t.edx = s.eax.srem s.ebx ∧ SameStack s t := by
  have hd := divide?_of_divisible (s := { s with edx := signWord s.eax, pc := s.pc + 1 })
    (toInt_signExtended s.eax) h
  simp only [execAll, exec, divide, value?, isWide, State.get, next, nextAfter, if_true, hd]
  exact ⟨_, rfl, rfl, rfl, rfl, rfl, rfl⟩

theorem execAll_division_trapped (h : ¬ divisible s.eax s.ebx = true) :
    ∃ t, p.execAll [.cdq, .idivl (.reg .ebx)] s = .trapped t := by
  have hd := divide?_of_not_divisible (s := { s with edx := signWord s.eax, pc := s.pc + 1 })
    (toInt_signExtended s.eax) h
  simp only [execAll, exec, divide, value?, isWide, State.get, next, if_true, hd]
  exact ⟨_, rfl⟩

theorem execAll_arith {op : ArithOp} {v : Word} (h : op.apply s.eax (s.get op.scratch) = .ok v) :
    ∃ t, p.execAll op.code s = .running t ∧ t.eax = v ∧ SameStack s t := by
  cases op with
  | div =>
    rw [ArithOp.apply] at h
    split at h
    · next hd =>
      obtain rfl := Except.ok.inj h
      obtain ⟨t, ht, ha, -, hs⟩ := p.execAll_division hd
      exact ⟨t, ht, ha, hs⟩
    · cases h
  | mod =>
    rw [ArithOp.apply] at h
    split at h
    · next hd =>
      obtain rfl := Except.ok.inj h
      obtain ⟨t, ht, -, hr, hs⟩ := p.execAll_division hd
      refine ⟨_, execAll_append ht [.movl (.reg .edx) accumulator], hr, hs.esp, hs.ebp, hs.memory⟩
    · cases h
  | add | sub | mul | bitAnd | bitOr | bitXor =>
    obtain rfl := Except.ok.inj h
    exact ⟨_, rfl, rfl, rfl, rfl, rfl⟩
  | shiftLeft =>
    obtain rfl := Except.ok.inj h
    refine ⟨_, rfl, ?_, rfl, rfl, rfl⟩
    exact congrArg (s.eax <<< ·) (count_mod s.ecx)
  | shiftRight =>
    obtain rfl := Except.ok.inj h
    refine ⟨_, rfl, ?_, rfl, rfl, rfl⟩
    exact congrArg s.eax.sshiftRight (count_mod s.ecx)

theorem execAll_arith_trapped {op : ArithOp} {e : Stop}
    (h : op.apply s.eax (s.get op.scratch) = .error e) :
    e = .division ∧ ∃ t, p.execAll op.code s = .trapped t := by
  cases op with
  | div =>
    rw [ArithOp.apply] at h
    split at h
    · cases h
    · next hd => exact ⟨(Except.error.inj h).symm, p.execAll_division_trapped hd⟩
  | mod =>
    rw [ArithOp.apply] at h
    split at h
    · cases h
    · next hd =>
      obtain ⟨t, ht⟩ := p.execAll_division_trapped hd
      exact ⟨(Except.error.inj h).symm, t, execAll_append_trapped ht _⟩
  | add | sub | mul | bitAnd | bitOr | bitXor | shiftLeft | shiftRight => cases h

/-- The accumulator becomes the truth of a comparison with the operand. -/
theorem execAll_truth (c : Condition) {rhs : Operand} {b : Word} (h : p.value? s rhs = some b) :
    ∃ t, p.execAll (Lowering.truth c rhs) s = .running t ∧
      t.eax = truthValue ((Flags.compare s.eax b).holds c) ∧ SameStack s t := by
  have hc : p.exec (.cmpl rhs accumulator) s =
      .running { s with flags := .compare s.eax b, pc := s.pc + 1 } := by
    have ha : p.value? s accumulator = some s.eax := rfl
    have hm : (isMemory rhs && isMemory accumulator) = false := Bool.and_false _
    simp only [exec, hm, h, ha]
    rfl
  rw [Lowering.truth, execAll, hc]
  refine ⟨_, rfl, ?_, rfl, rfl, rfl⟩
  change (0#32 &&& ~~~0xff#32 ||| (if (Flags.compare s.eax b).holds c then 1#32 else 0#32) &&& 0xff#32) = _
  unfold truthValue
  split <;> rfl

end Image

end SmallC.Machine
