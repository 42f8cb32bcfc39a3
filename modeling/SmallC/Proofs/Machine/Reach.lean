import SmallC.Proofs.Machine.Run

/-!
# What a run gets to

`Reaches` says that a run gets to a state with some property, `Traps` that it ends in a division without
a result. Both are put together from runs of shorter pieces of code. A piece without jumps can be run
apart from the code it stands in.
-/
namespace SmallC.Machine

open Assembly

/-- The block stands in the code from a place on. -/
def Placed (code : List Instruction) (place : Nat) (block : List Instruction) : Prop :=
  ∃ front back, code = front ++ block ++ back ∧ front.length = place

namespace Placed

variable {code a b : List Instruction} {i : Instruction} {place : Nat}

theorem left (h : Placed code place (a ++ b)) : Placed code place a := by
  obtain ⟨front, back, hc, hp⟩ := h
  exact ⟨front, b ++ back, by simp [hc], hp⟩

theorem right (h : Placed code place (a ++ b)) : Placed code (place + a.length) b := by
  obtain ⟨front, back, hc, hp⟩ := h
  exact ⟨front ++ a, back, by simp [hc], by simp [hp]⟩

theorem tail (h : Placed code place (i :: b)) : Placed code (place + 1) b :=
  right (a := [i]) h

theorem fetch (h : Placed code place (i :: b)) : code[place]? = some i := by
  obtain ⟨front, back, rfl, rfl⟩ := h
  simp

end Placed

/-- The label that an instruction defines. -/
def label? : Instruction → Option String
  | .label name => some name
  | _ => none

def labels (code : List Instruction) : List String :=
  code.filterMap label?

/-- A label that is defined once is found where it stands. -/
theorem idxOf?_label {code : List Instruction} {name : String} {place : Nat}
    (hl : (labels code).Nodup) (h : code[place]? = some (.label name)) :
    code.idxOf? (.label name) = some place := by
  induction code generalizing place with
  | nil => simp at h
  | cons i code ih =>
    cases place with
    | zero =>
      rw [List.getElem?_cons_zero, Option.some.injEq] at h
      simp [h, List.idxOf?_cons]
    | succ place =>
      rw [List.getElem?_cons_succ] at h
      have hm : name ∈ labels code :=
        List.mem_filterMap.2 ⟨.label name, List.mem_of_getElem? h, rfl⟩
      have hi : i ≠ .label name := by
        rintro rfl
        exact (List.nodup_cons.1 hl).1 hm
      have hn : (labels code).Nodup := by
        unfold labels at hl
        rw [List.filterMap_cons] at hl
        split at hl
        · exact hl
        · exact (List.nodup_cons.1 hl).2
      simp [List.idxOf?_cons, hi, ih hn h]

/-- Goes on to the instruction behind it, if at all. -/
def isLinear : Instruction → Bool
  | .jmp _ | .jcc _ _ | .call _ | .ret | .int _ => false
  | _ => true

namespace Image

variable {p : Image} {s t u : State} {i : Instruction} {Q R : State → Prop}

theorem next_running {o : Option State} (h : next o = .running t) :
    ∃ u, o = some u ∧ t = { u with pc := u.pc + 1 } := by
  cases o with
  | none => cases h
  | some u => exact ⟨u, rfl, (Outcome.running.inj h).symm⟩

theorem nextAfter_running {o : Option State} (h : p.nextAfter i s o = .running t) :
    ∃ u, o = some u ∧ t.pc = u.pc + 1 := by
  obtain ⟨v, hv, rfl⟩ := next_running h
  obtain ⟨u, hu, rfl⟩ := Option.map_eq_some_iff.1 hv
  exact ⟨u, hu, rfl⟩

@[simp] theorem set_pc (s : State) (r : Register) (v : Word) : (s.set r v).pc = s.pc := by
  cases r <;> rfl

theorem write?_pc {v : Word} {op : Operand} (h : write? s v op = some t) : t.pc = s.pc := by
  cases op with
  | imm value => cases h
  | literal digits => cases h
  | reg r =>
    simp only [write?, Option.ite_none_right_eq_some, Option.some.injEq] at h
    rw [← h.2, set_pc]
  | mem displacement base =>
    simp only [write?, Option.ite_none_right_eq_some, Option.some.injEq] at h
    rw [← h.2]

theorem combine?_pc {src dst : Operand} {f : Word → Word → Word}
    (h : p.combine? s src dst f = some t) : t.pc = s.pc := by
  simp only [combine?, Option.ite_none_left_eq_some, Option.bind_eq_bind,
    Option.bind_eq_some_iff] at h
  obtain ⟨-, new, -, old, -, hw⟩ := h
  exact write?_pc hw

theorem change?_pc {op : Operand} {f : Word → Word} (h : p.change? s op f = some t) :
    t.pc = s.pc := by
  simp only [change?, Option.bind_eq_bind, Option.bind_eq_some_iff] at h
  obtain ⟨old, -, hw⟩ := h
  exact write?_pc hw

theorem shift?_pc {count : Register} {dst : Operand} {f : Word → Nat → Word}
    (h : p.shift? s count dst f = some t) : t.pc = s.pc := by
  simp only [shift?, Option.ite_none_right_eq_some] at h
  exact change?_pc h.2

theorem divide_running {op : Operand} (h : p.divide i s op = .running t) : t.pc = s.pc + 1 := by
  unfold divide at h
  split at h
  · cases h
  · split at h
    · cases h
    · next hd =>
      obtain ⟨v, hv, hp⟩ := nextAfter_running h
      obtain rfl := Option.some.inj hv
      simp only [State.divide?, Option.ite_none_left_eq_some, Option.some.injEq] at hd
      rw [hp, ← hd.2]

/-- Instructions that are not jumps go on to the next place. -/
theorem exec_pc (hl : isLinear i = true) (h : p.exec i s = .running t) : t.pc = s.pc + 1 := by
  cases i with
  | jmp | jcc | call | ret | int => cases hl
  | idivl op => exact divide_running h
  | movl src dst =>
    obtain ⟨u, hu, rfl⟩ := next_running h
    rw [combine?_pc hu]
  | addl src dst | subl src dst | imull src dst | andl src dst | orl src dst | xorl src dst =>
    obtain ⟨u, hu, hp⟩ := nextAfter_running h
    rw [hp, combine?_pc hu]
  | negl op | incl op | decl op =>
    obtain ⟨u, hu, hp⟩ := nextAfter_running h
    rw [hp, change?_pc hu]
  | notl op =>
    obtain ⟨u, hu, rfl⟩ := next_running h
    rw [change?_pc hu]
  | sall count dst | sarl count dst =>
    obtain ⟨u, hu, hp⟩ := nextAfter_running h
    rw [hp, shift?_pc hu]
  | pushl op =>
    obtain ⟨u, hu, rfl⟩ := next_running h
    obtain ⟨v, -, rfl⟩ := Option.map_eq_some_iff.1 hu
    rfl
  | popl r =>
    obtain ⟨u, hu, rfl⟩ := next_running h
    simp only [Option.ite_none_right_eq_some, Option.some.injEq] at hu
    simp [← hu.2, State.pop]
  | cmpl src dst =>
    obtain ⟨u, hu, rfl⟩ := next_running h
    simp only [Option.ite_none_left_eq_some, Option.bind_eq_bind, Option.bind_eq_some_iff,
      Option.some.injEq] at hu
    obtain ⟨-, b, -, a, -, rfl⟩ := hu
    rfl
  | set c r =>
    obtain ⟨u, hu, rfl⟩ := next_running h
    simp only [Option.ite_none_left_eq_some, Option.some.injEq] at hu
    rw [← hu.2, set_pc]
  | cdq | label | comment | directive | blank =>
    obtain rfl := Outcome.running.inj h
    rfl

/-- Only a division traps. -/
theorem exec_trapped (h : p.exec i s = .trapped t) : t = s ∧ ∃ op, i = .idivl op := by
  have never (o : Option State) : next o ≠ .trapped t := by
    cases o <;> simp [next]
  have jumps (s : State) (target : String) : p.jump s target ≠ .trapped t := by
    unfold jump
    split <;> simp
  cases i with
  | idivl op =>
    refine ⟨?_, op, rfl⟩
    simp only [exec, divide] at h
    split at h
    · cases h
    · split at h
      · exact (Outcome.trapped.inj h).symm
      · exact absurd h (never _)
  | jcc c target =>
    simp only [exec] at h
    split at h
    · exact absurd h (jumps _ _)
    · exact absurd h (never _)
  | jmp | call => exact absurd h (jumps _ _)
  | cdq | ret | int | label | comment | directive | blank => cases h
  | _ => exact absurd h (never _)

theorem execAll_append {a : List Instruction} (h : p.execAll a s = .running t)
    (b : List Instruction) : p.execAll (a ++ b) s = p.execAll b t := by
  induction a generalizing s with
  | nil =>
    obtain rfl := Outcome.running.inj h
    rfl
  | cons i a ih =>
    rw [List.cons_append, execAll]
    rw [execAll] at h
    cases hi : p.exec i s with
    | running u =>
      rw [hi] at h
      exact ih h
    | trapped u | interrupted v u | stuck => simp [hi] at h

theorem execAll_append_trapped {a : List Instruction} (h : p.execAll a s = .trapped t)
    (b : List Instruction) : p.execAll (a ++ b) s = .trapped t := by
  induction a generalizing s with
  | nil => cases h
  | cons i a ih =>
    rw [List.cons_append, execAll]
    rw [execAll] at h
    cases hi : p.exec i s with
    | running u =>
      rw [hi] at h
      exact ih h
    | trapped u =>
      rw [hi] at h
      exact h
    | interrupted v u | stuck => simp [hi] at h

/-- The run gets to a state with the property. -/
def Reaches (p : Image) (s : State) (Q : State → Prop) : Prop :=
  ∃ n t, p.run n s = .running t ∧ Q t

/-- The run ends at a division without a result. -/
def Traps (p : Image) (s : State) : Prop :=
  ∃ n t op, p.run n s = .trapped t ∧ p.code[t.pc]? = some (.idivl op)

theorem reaches_here (h : Q s) : p.Reaches s Q :=
  ⟨0, s, rfl, h⟩

theorem run_add {m : Nat} (h : p.run m s = .running t) (n : Nat) :
    p.run (m + n) s = p.run n t := by
  induction m generalizing s with
  | zero =>
    obtain rfl := Outcome.running.inj h
    rw [Nat.zero_add]
  | succ m ih =>
    rw [Nat.succ_add, run]
    rw [run] at h
    cases hs : p.step s with
    | running u =>
      rw [hs] at h
      exact ih h
    | trapped u | interrupted v u | stuck => simp [hs] at h

theorem Reaches.trans (h : p.Reaches s Q) (hr : ∀ t, Q t → p.Reaches t R) : p.Reaches s R := by
  obtain ⟨m, t, hm, hq⟩ := h
  obtain ⟨n, u, hn, hu⟩ := hr t hq
  exact ⟨m + n, u, (run_add hm n).trans hn, hu⟩

theorem Reaches.traps (h : p.Reaches s Q) (hr : ∀ t, Q t → p.Traps t) : p.Traps s := by
  obtain ⟨m, t, hm, hq⟩ := h
  obtain ⟨n, u, op, hn, hu⟩ := hr t hq
  exact ⟨m + n, u, op, (run_add hm n).trans hn, hu⟩

theorem Reaches.mono (h : p.Reaches s Q) (hr : ∀ t, Q t → R t) : p.Reaches s R :=
  h.trans fun t ht => reaches_here (hr t ht)

/-- One step, of any kind. -/
theorem reaches_step {block : List Instruction} (hp : Placed p.code s.pc (i :: block))
    (he : p.exec i s = .running t) : p.Reaches s (· = t) := by
  refine ⟨1, t, ?_, rfl⟩
  simp [run, step, hp.fetch, he]

/-- A jump gets to the label it names, if there is no other one of that name. -/
theorem jump_eq (hl : (labels p.code).Nodup) {place : Nat} {target : String}
    {block : List Instruction} (hp : Placed p.code place (.label target :: block)) :
    p.jump s target = .running { s with pc := place } := by
  unfold jump
  rw [idxOf?_label hl hp.fetch]

/-- A block without jumps does in the code what it does alone. -/
theorem reaches_block {block : List Instruction} (hp : Placed p.code s.pc block)
    (hl : ∀ i ∈ block, isLinear i = true) (he : p.execAll block s = .running t) :
    p.Reaches s (fun u => u = t ∧ u.pc = s.pc + block.length) := by
  induction block generalizing s with
  | nil =>
    obtain rfl := Outcome.running.inj he
    exact reaches_here ⟨rfl, rfl⟩
  | cons i block ih =>
    rw [execAll] at he
    cases hi : p.exec i s with
    | running u =>
      rw [hi] at he
      have hpc := exec_pc (hl i List.mem_cons_self) hi
      refine (reaches_step hp hi).trans ?_
      rintro v rfl
      refine (ih (hpc ▸ hp.tail) (fun j hj => hl j (List.mem_cons_of_mem i hj)) he).mono ?_
      rintro w ⟨rfl, hw⟩
      refine ⟨rfl, ?_⟩
      rw [hw, hpc, List.length_cons]
      omega
    | trapped u | interrupted v u | stuck => simp [hi] at he

/-- A block without jumps that ends in a trap does so in the code as well. -/
theorem traps_block {block : List Instruction} (hp : Placed p.code s.pc block)
    (hl : ∀ i ∈ block, isLinear i = true) (he : p.execAll block s = .trapped t) :
    p.Traps s := by
  induction block generalizing s with
  | nil => cases he
  | cons i block ih =>
    rw [execAll] at he
    cases hi : p.exec i s with
    | running u =>
      rw [hi] at he
      have hpc := exec_pc (hl i List.mem_cons_self) hi
      refine (reaches_step hp hi).traps ?_
      rintro v rfl
      exact ih (hpc ▸ hp.tail) (fun j hj => hl j (List.mem_cons_of_mem i hj)) he
    | trapped u =>
      obtain ⟨rfl, op, rfl⟩ := exec_trapped hi
      refine ⟨1, u, op, ?_, hp.fetch⟩
      simp [run, step, hp.fetch, hi]
    | interrupted v u | stuck => simp [hi] at he

end Image

end SmallC.Machine
