import SmallC.Proofs.Emission
import SmallC.Proofs.Simulation.Frame

/-!
# Expressions run as they evaluate

The code of an expression, wherever it stands in a program, does on a represented state what evaluating
the expression does on the state of the evaluator: it comes to its own end in a state that represents
the result, or traps where the evaluation has no result. The induction is on the expression; what
carries it is that the temporaries below the frame are kept, so that an operand parked on the stack is
still there when the other one has been worked out.
-/
namespace SmallC

/-- Words that evaluating the expression puts on the stack at most at a time. -/
def Expr.temporaries : Expr → Nat
  | .number _ _ => 0
  | .var _ _ => 0
  | .unary _ operand _ => operand.temporaries
  | .binary op left right _ =>
    match op with
    | .comma | .logAnd | .logOr => max left.temporaries right.temporaries
    | .arith _ | .compare _ => max right.temporaries (left.temporaries + 1)
  | .assign _ _ value _ => value.temporaries

namespace Simulation

open Assembly Machine Lowering

variable {p : Image} {slots : Slots} {base depth : Nat} {env : Env} {s t : State}

/-- The run does what an evaluation comes to. -/
def Follows (p : Image) (s : State) {α : Type} (r : Except Stop α) (Q : α → State → Prop) : Prop :=
  match r with
  | .ok a => p.Reaches s (Q a)
  | .error .division => p.Traps s
  | .error .meaningless => False

namespace Follows

variable {α β : Type} {r : Except Stop α} {f : α → Except Stop β} {Q : α → State → Prop}
  {R : β → State → Prop}

theorem bind (h : Follows p s r Q) (hf : ∀ a t, Q a t → Follows p t (f a) R) :
    Follows p s (r >>= f) R := by
  cases r with
  | ok a =>
    have hfa := hf a
    change Follows p s (f a) R
    generalize f a = r' at hfa ⊢
    cases r' with
    | ok b => exact Image.Reaches.trans h hfa
    | error e =>
      cases e with
      | division => exact Image.Reaches.traps h hfa
      | meaningless =>
        obtain ⟨n, t, -, hq⟩ := h
        exact hfa t hq
  | error e =>
    cases e with
    | division => exact h
    | meaningless => exact h

theorem after {P : State → Prop} (h : p.Reaches s P) (hf : ∀ t, P t → Follows p t r Q) :
    Follows p s r Q := by
  have hpure : Follows p s (.ok () : Except Stop Unit) (fun _ => P) := h
  exact bind (f := fun _ => r) hpure fun _ t ht => hf t ht

theorem mono {Q' : α → State → Prop} (h : Follows p s r Q) (hq : ∀ a t, Q a t → Q' a t) :
    Follows p s r Q' := by
  cases r with
  | ok a => exact Image.Reaches.mono h (hq a)
  | error e =>
    cases e with
    | division => exact h
    | meaningless => exact h

/-- What the state is known to represent is the result. -/
theorem with_result (h : Follows p s r Q) : Follows p s r (fun a t => r = .ok a ∧ Q a t) := by
  cases r with
  | ok a => exact Image.Reaches.mono h fun t ht => ⟨rfl, ht⟩
  | error e =>
    cases e with
    | division => exact h
    | meaningless => exact h

end Follows

/-- The state behind the code of an expression. -/
structure Evaluated (slots : Slots) (base depth : Nat) (s : State) (code : List Instruction)
    (env : Env) (t : State) : Prop where
  represents : Represents slots base depth env t
  keeps : Keeps slots base depth s t
  pc : t.pc = s.pc + code.length

theorem Evaluated.trans {a b : List Instruction} {env' : Env} {u : State}
    (h : Evaluated slots base depth s a env t) (h' : Evaluated slots base depth t b env' u) :
    Evaluated slots base depth s (a ++ b) env' u := by
  refine ⟨h'.represents, h.keeps.trans h'.keeps, ?_⟩
  rw [h'.pc, h.pc, List.length_append, Nat.add_assoc]

theorem Evaluated.placed {a b : List Instruction} (h : Evaluated slots base depth s a env t)
    (hp : Placed p.code s.pc (a ++ b)) : Placed p.code t.pc b :=
  h.pc ▸ hp.right

/-- Code that works in the registers. -/
theorem reaches_registers (h : Represents slots base depth env s) {block : List Instruction}
    (hp : Placed p.code s.pc block) (hl : ∀ i ∈ block, isLinear i = true)
    (he : p.execAll block s = .running t) (hs : SameStack s t) :
    p.Reaches s (Evaluated slots base depth s block (env.yield t.eax)) := by
  refine (Image.reaches_block hp hl he).mono ?_
  rintro u ⟨rfl, hpc⟩
  exact ⟨h.of_sameStack hs, .of_memory_eq hs.memory, hpc⟩

/-- Code that ends in storing to a variable. -/
theorem reaches_assign (h : Represents slots base depth env s) {block : List Instruction}
    (hp : Placed p.code s.pc block) (hl : ∀ i ∈ block, isLinear i = true)
    (he : p.execAll block s = .running t) {name : String} {i : Nat} {v : Word}
    (hi : slots.names.idxOf? name = some i) (hesp : t.esp = s.esp) (hebp : t.ebp = s.ebp)
    (hm : t.memory = s.memory.store (slotAddress s.ebp i) v) :
    p.Reaches s (Evaluated slots base depth s block ((env.bind name v).yield t.eax)) := by
  refine (Image.reaches_block hp hl he).mono ?_
  rintro u ⟨rfl, hpc⟩
  obtain ⟨hr, hk⟩ := h.assign hi v hesp hebp hm
  exact ⟨hr, hk, hpc⟩

theorem isLinear_truth (c : Condition) (rhs : Operand) : ∀ i ∈ truth c rhs, isLinear i = true := by
  simp [truth, isLinear]

theorem isLinear_arith (op : ArithOp) : ∀ i ∈ op.code, isLinear i = true := by
  cases op <;> simp [ArithOp.code, isLinear]

/-- A slot that was found is the slot of a variable. -/
theorem offset?_eq {name : String} {offset : Int} (h : slots.offset? name = some offset) :
    ∃ i, slots.names.idxOf? name = some i ∧ offset = Slots.offsetAt i := by
  obtain ⟨i, hi, ho⟩ := Option.map_eq_some_iff.1 h
  exact ⟨i, hi, ho.symm⟩

theorem eval_target {e : Expr} {name : String} (h : e.var? = some name) : e.target = .ok name := by
  rw [Expr.target, h]

/-- What is shown of every expression. -/
def Simulates (p : Image) (slots : Slots) (e : Expr) : Prop :=
  ∀ {l l' : Labels} {code : List Instruction} {env : Env} {s : State} {base depth : Nat},
    (Lowering.expr slots e).Yields l () code l' → Placed p.code s.pc code →
    Represents slots base depth env s → 4 * (depth + e.temporaries) ≤ base →
    Follows p s (e.eval p.literal env) (Evaluated slots base depth s code)

theorem simulates_number (digits : String) (pos : Position) :
    Simulates p slots (.number digits pos) := by
  intro l l' code env s base depth hy hp hr _
  obtain ⟨rfl, -⟩ := Emit.emit_yields.1 hy
  exact reaches_registers hr hp (by simp [isLinear]) rfl ⟨rfl, rfl, rfl⟩

theorem simulates_var (name : String) (pos : Position) : Simulates p slots (.var name pos) := by
  intro l l' code env s base depth hy hp hr _
  obtain ⟨op, first, middle, second, hv, he, rfl⟩ := Emit.bind_yields.1 hy
  obtain ⟨offset, ho, rfl, rfl, rfl⟩ := variableSlot_yields hv
  obtain ⟨rfl, -⟩ := Emit.emit_yields.1 he
  obtain ⟨i, hi, rfl⟩ := offset?_eq ho
  rw [Expr.eval, hr.lookup hi]
  exact reaches_registers hr hp (by simp [isLinear]) rfl ⟨rfl, rfl, rfl⟩

/-- An operand, and then work on its value in the registers. -/
theorem follows_then {r : Except Stop Env} {first block : List Instruction}
    (h : Follows p s r (Evaluated slots base depth s first))
    (hp : Placed p.code s.pc (first ++ block)) (hl : ∀ i ∈ block, isLinear i = true)
    {g : Word → Word}
    (he : ∀ t, ∃ u, p.execAll block t = .running u ∧ u.eax = g t.eax ∧ SameStack t u) :
    Follows p s (do let env ← r; .ok (env.yield (g env.accumulator)))
      (Evaluated slots base depth s (first ++ block)) := by
  refine h.bind ?_
  intro env t ht
  obtain ⟨u, hu, ha, hs⟩ := he t
  have hrun := reaches_registers ht.represents (ht.placed hp) hl hu hs
  rw [ha, ht.represents.accumulator] at hrun
  exact hrun.mono fun v hv => ht.trans hv

theorem simulates_neg {operand : Expr} (h : Simulates p slots operand) (pos : Position) :
    Simulates p slots (.unary .neg operand pos) := by
  intro l l' code env s base depth hy hp hr hroom
  obtain ⟨_, first, middle, second, hx, he, rfl⟩ := Emit.bind_yields.1 hy
  obtain ⟨rfl, -⟩ := Emit.emit_yields.1 he
  exact follows_then (h hx hp.left hr hroom) hp (by simp [isLinear])
    fun t => ⟨_, rfl, rfl, rfl, rfl, rfl⟩

theorem simulates_bitNot {operand : Expr} (h : Simulates p slots operand) (pos : Position) :
    Simulates p slots (.unary .bitNot operand pos) := by
  intro l l' code env s base depth hy hp hr hroom
  obtain ⟨_, first, middle, second, hx, he, rfl⟩ := Emit.bind_yields.1 hy
  obtain ⟨rfl, -⟩ := Emit.emit_yields.1 he
  exact follows_then (h hx hp.left hr hroom) hp (by simp [isLinear])
    fun t => ⟨_, rfl, rfl, rfl, rfl, rfl⟩

theorem simulates_logNot {operand : Expr} (h : Simulates p slots operand) (pos : Position) :
    Simulates p slots (.unary .logNot operand pos) := by
  intro l l' code env s base depth hy hp hr hroom
  obtain ⟨_, first, middle, second, hx, he, rfl⟩ := Emit.bind_yields.1 hy
  obtain ⟨rfl, -⟩ := Emit.emit_yields.1 he
  exact follows_then (g := fun v => truthValue (v == 0#32)) (h hx hp.left hr hroom) hp
    (isLinear_truth _ _) fun t => p.execAll_truth .equal (b := 0#32) rfl

theorem simulates_before {operand : Expr} (op : StepOp) (pos : Position) :
    Simulates p slots (.unary (.before op) operand pos) := by
  intro l l' code env s base depth hy hp hr _
  obtain ⟨slot, first, middle, second, ht, he, rfl⟩ := Emit.bind_yields.1 hy
  obtain ⟨name, offset, hv, ho, rfl, rfl, rfl⟩ := targetSlot_yields ht
  obtain ⟨rfl, -⟩ := Emit.emit_yields.1 he
  obtain ⟨i, hi, rfl⟩ := offset?_eq ho
  rw [Expr.eval, eval_target hv]
  change Follows p s (do let old ← env.lookup name; _) _
  rw [hr.lookup hi]
  cases op with
  | increment => exact reaches_assign hr hp (by simp [stepBefore, isLinear]) rfl hi rfl rfl rfl
  | decrement => exact reaches_assign hr hp (by simp [stepBefore, isLinear]) rfl hi rfl rfl rfl

theorem simulates_after {operand : Expr} (op : StepOp) (pos : Position) :
    Simulates p slots (.unary (.after op) operand pos) := by
  intro l l' code env s base depth hy hp hr _
  obtain ⟨slot, first, middle, second, ht, he, rfl⟩ := Emit.bind_yields.1 hy
  obtain ⟨name, offset, hv, ho, rfl, rfl, rfl⟩ := targetSlot_yields ht
  obtain ⟨rfl, -⟩ := Emit.emit_yields.1 he
  obtain ⟨i, hi, rfl⟩ := offset?_eq ho
  rw [Expr.eval, eval_target hv]
  change Follows p s (do let old ← env.lookup name; _) _
  rw [hr.lookup hi]
  cases op with
  | increment => exact reaches_assign hr hp (by simp [stepAfter, isLinear]) rfl hi rfl rfl rfl
  | decrement => exact reaches_assign hr hp (by simp [stepAfter, isLinear]) rfl hi rfl rfl rfl

theorem simulates_comma {left right : Expr} (hl : Simulates p slots left)
    (hr : Simulates p slots right) (pos : Position) :
    Simulates p slots (.binary .comma left right pos) := by
  intro l l' code env s base depth hy hp hrep hroom
  obtain ⟨_, first, middle, second, hx, hx', rfl⟩ := Emit.bind_yields.1 hy
  simp only [Expr.temporaries] at hroom
  refine (hl hx hp.left hrep (by omega)).bind ?_
  intro env' t ht
  exact (hr hx' (ht.placed hp) ht.represents (by omega)).mono fun _ _ => ht.trans

/-- Parking the accumulator on the stack. -/
theorem exec_pushl (h : Represents slots base depth env s) (hroom : 4 * (depth + 1) ≤ base) :
    ∃ t, p.exec (.pushl accumulator) s = .running t ∧ Represents slots base (depth + 1) env t ∧
      Keeps slots base depth s t ∧ t.memory.load t.esp = env.accumulator ∧ t.pc = s.pc + 1 := by
  let t : State := { s.push s.eax with pc := s.pc + 1 }
  obtain ⟨hr, hk, htop⟩ := h.push (t := t) hroom rfl rfl rfl rfl
  exact ⟨t, rfl, hr, hk, htop.trans h.accumulator, rfl⟩

/-- Taking the newest temporary off into a register. -/
theorem exec_popl {r : Register} (hscratch : r = .ebx ∨ r = .ecx)
    (h : Represents slots base (depth + 1) env s) (hs : slots.size ≤ depth) :
    ∃ t, p.exec (.popl r) s = .running t ∧ Represents slots base depth env t ∧
      t.get r = s.memory.load s.esp ∧ t.memory = s.memory ∧ t.pc = s.pc + 1 := by
  rcases hscratch with rfl | rfl
  · exact ⟨_, rfl, h.pop hs rfl rfl rfl rfl, rfl, rfl, rfl⟩
  · exact ⟨_, rfl, h.pop hs rfl rfl rfl rfl, rfl, rfl, rfl⟩

/-- Evaluating an expression leaves the newest temporary where it is. -/
theorem Evaluated.load_top {env' : Env} {code : List Instruction}
    (h : Evaluated slots base (depth + 1) s code env' t)
    (hs : Represents slots base (depth + 1) env s) (hsize : slots.size ≤ depth) :
    t.memory.load t.esp = s.memory.load s.esp := by
  have htop := hs.top
  have htop' := h.represents.top
  have hbase := hs.above
  have hesp : t.esp = s.esp := BitVec.eq_of_toNat_eq (by omega)
  rw [hesp, h.keeps.load_eq (by omega) (by omega) (by omega)]

/-- The right operand, parked on the stack while the left one is worked out, and then work on both in
the registers. -/
theorem follows_binary {left right : Expr} (hl : Simulates p slots left)
    (hr : Simulates p slots right) {l₁ l₂ l₃ l₄ : Labels} {first second block : List Instruction}
    (hx : (Lowering.expr slots right).Yields l₁ () first l₂)
    (hx' : (Lowering.expr slots left).Yields l₃ () second l₄) {r : Register}
    (hscratch : r = .ebx ∨ r = .ecx) {f : Word → Word → Except Stop Word}
    (hok : ∀ t v, f t.eax (t.get r) = .ok v →
      ∃ u, p.execAll block t = .running u ∧ u.eax = v ∧ SameStack t u)
    (herror : ∀ t e, f t.eax (t.get r) = .error e →
      e = .division ∧ ∃ u, p.execAll block t = .trapped u)
    (hlinear : ∀ i ∈ block, isLinear i = true)
    (hp : Placed p.code s.pc (first ++ ([.pushl accumulator] ++ (second ++ .popl r :: block))))
    (hrep : Represents slots base depth env s)
    (hroom : 4 * (depth + max right.temporaries (left.temporaries + 1)) ≤ base) :
    Follows p s
      (do
        let afterRight ← right.eval p.literal env
        let afterLeft ← left.eval p.literal afterRight
        let v ← f afterLeft.accumulator afterRight.accumulator
        .ok (afterLeft.yield v))
      (Evaluated slots base depth s
        (first ++ ([.pushl accumulator] ++ (second ++ .popl r :: block)))) := by
  refine (hr hx hp.left hrep (by omega)).bind ?_
  intro afterRight t ht
  have hpt := ht.placed hp
  obtain ⟨u, hpush, hu, hkeep, htop, hupc⟩ := exec_pushl (p := p) ht.represents (by omega)
  refine .after (Image.reaches_step hpt hpush) ?_
  rintro u rfl
  have hpu : Placed p.code u.pc (second ++ .popl r :: block) := hupc ▸ hpt.tail
  refine (hl hx' hpu.left hu (by omega)).bind ?_
  intro afterLeft w hw
  have hsize := ht.represents.size_le
  have hparked := (hw.load_top hu hsize).trans htop
  have hpw := hw.placed hpu
  obtain ⟨x, hpop, hxrep, hxr, hxm, hxpc⟩ := exec_popl (p := p) hscratch hw.represents hsize
  refine .after (Image.reaches_step hpw hpop) ?_
  rintro x rfl
  have hpx : Placed p.code x.pc block := hxpc ▸ hpw.tail
  rw [← hxrep.accumulator, ← hparked, ← hxr]
  cases hf : f x.eax (x.get r) with
  | ok v =>
    obtain ⟨y, hy, hv, hs⟩ := hok x v hf
    have hrun := reaches_registers hxrep hpx hlinear hy hs
    rw [hv] at hrun
    refine hrun.mono fun z hz => ⟨hz.represents, ?_, ?_⟩
    · have hwx : Keeps slots base depth w x := .of_memory_eq hxm
      exact ht.keeps.trans (hkeep.trans (hw.keeps.shallower.trans (hwx.trans hz.keeps)))
    · rw [hz.pc, hxpc, hw.pc, hupc, ht.pc]
      simp only [List.length_append, List.length_cons, List.length_nil]
      omega
  | error e =>
    obtain ⟨rfl, y, hy⟩ := herror x e hf
    exact Image.traps_block hpx hlinear hy

theorem scratch_cases (op : ArithOp) : op.scratch = .ebx ∨ op.scratch = .ecx := by
  cases op <;> simp [ArithOp.scratch]

theorem simulates_arith {left right : Expr} (hl : Simulates p slots left)
    (hr : Simulates p slots right) (op : ArithOp) (pos : Position) :
    Simulates p slots (.binary (.arith op) left right pos) := by
  intro l l' code env s base depth hy hp hrep hroom
  obtain ⟨first, second, _, hx, hx', rfl⟩ := Emit.alternate_yields hy
  exact follows_binary hl hr hx hx' (scratch_cases op) (fun t v => p.execAll_arith)
    (fun t e => p.execAll_arith_trapped) (isLinear_arith op) hp hrep hroom

theorem simulates_compare {left right : Expr} (hl : Simulates p slots left)
    (hr : Simulates p slots right) (op : CompareOp) (pos : Position) :
    Simulates p slots (.binary (.compare op) left right pos) := by
  intro l l' code env s base depth hy hp hrep hroom
  obtain ⟨first, second, _, hx, hx', rfl⟩ := Emit.alternate_yields hy
  refine follows_binary (f := fun a b => .ok (truthValue (op.holds a b))) hl hr hx hx' (.inl rfl)
    ?_ (fun t e h => nomatch h) (isLinear_truth _ _) hp hrep hroom
  intro t v hv
  obtain rfl := Except.ok.inj hv
  rw [← holds_compare]
  exact p.execAll_truth op.condition rfl

/-- A jump on the accumulator that is taken. -/
theorem reaches_test_taken (hl : (labels p.code).Nodup) {c : Condition} {target : String}
    {block rest : List Instruction} {place : Nat}
    (hp : Placed p.code s.pc (.cmpl (.imm 0) accumulator :: .jcc c target :: block))
    (ht : Placed p.code place (.label target :: rest))
    (hc : (Flags.compare s.eax 0#32).holds c = true) :
    p.Reaches s (· = { s with flags := .compare s.eax 0#32, pc := place }) := by
  have hcmp : p.exec (.cmpl (.imm 0) accumulator) s =
      .running { s with flags := .compare s.eax 0#32, pc := s.pc + 1 } := rfl
  refine (Image.reaches_step hp hcmp).trans ?_
  rintro t rfl
  refine Image.reaches_step hp.tail ?_
  rw [Image.exec, if_pos hc, Image.jump_eq hl ht]

/-- A jump on the accumulator that is not taken. -/
theorem reaches_test_passed {c : Condition} {target : String} {block : List Instruction}
    (hp : Placed p.code s.pc (.cmpl (.imm 0) accumulator :: .jcc c target :: block))
    (hc : (Flags.compare s.eax 0#32).holds c = false) :
    p.Reaches s (· = { s with flags := .compare s.eax 0#32, pc := s.pc + 2 }) := by
  have hcmp : p.exec (.cmpl (.imm 0) accumulator) s =
      .running { s with flags := .compare s.eax 0#32, pc := s.pc + 1 } := rfl
  refine (Image.reaches_step hp hcmp).trans ?_
  rintro t rfl
  refine Image.reaches_step hp.tail ?_
  rw [Image.exec, hc]
  rfl

theorem reaches_jmp (hl : (labels p.code).Nodup) {target : String}
    {block rest : List Instruction} {place : Nat} (hp : Placed p.code s.pc (.jmp target :: block))
    (ht : Placed p.code place (.label target :: rest)) :
    p.Reaches s (· = { s with pc := place + 1 }) := by
  have hjump : p.exec (.jmp target) s = .running { s with pc := place } := by
    rw [Image.exec, Image.jump_eq hl ht]
  refine (Image.reaches_step hp hjump).trans ?_
  rintro t rfl
  exact Image.reaches_step ht rfl

/-- A logical operator that its left operand does not decide goes on to the right one. -/
theorem reaches_branch_open (hl : (labels p.code).Nodup) {isAnd : Bool} {skipped finish : String}
    (h : (s.eax == 0#32) ≠ isAnd) {block : List Instruction}
    (hp : Placed p.code s.pc (branch isAnd skipped finish ++ .label skipped :: block)) :
    p.Reaches s (fun t => SameStack s t ∧ t.eax = s.eax ∧
      t.pc = s.pc + (branch isAnd skipped finish).length + 1) := by
  have hskipped := hp.right
  have hjump : p.Reaches s (· = { s with
      flags := .compare s.eax 0#32, pc := s.pc + (branch isAnd skipped finish).length }) := by
    cases isAnd with
    | true => exact reaches_test_taken hl hp hskipped (by simpa [Flags.holds, Flags.compare] using h)
    | false => exact reaches_test_taken hl hp hskipped (by simpa [Flags.holds, Flags.compare] using h)
  refine hjump.trans ?_
  rintro t rfl
  refine (Image.reaches_step hskipped rfl).mono ?_
  rintro t rfl
  exact ⟨⟨rfl, rfl, rfl⟩, rfl, rfl⟩

/-- A logical operator that its left operand decides goes to its end with the result. -/
theorem reaches_branch_decided (hl : (labels p.code).Nodup) {isAnd : Bool}
    {skipped finish : String} (h : (s.eax == 0#32) = isAnd) {block rest : List Instruction}
    (hp : Placed p.code s.pc (branch isAnd skipped finish ++ block)) {place : Nat}
    (hf : Placed p.code place (.label finish :: rest)) :
    p.Reaches s (fun t => SameStack s t ∧ t.eax = truthValue (!isAnd) ∧ t.pc = place + 1) := by
  cases isAnd with
  | true =>
    refine (reaches_test_passed hp (by simpa [Flags.holds, Flags.compare] using h)).trans ?_
    rintro t rfl
    refine (reaches_jmp hl hp.tail.tail hf).mono ?_
    rintro t rfl
    exact ⟨⟨rfl, rfl, rfl⟩, by simpa [truthValue] using h, rfl⟩
  | false =>
    refine (reaches_test_passed hp (by simpa [Flags.holds, Flags.compare] using h)).trans ?_
    rintro t rfl
    refine (Image.reaches_step hp.tail.tail rfl).trans ?_
    rintro t rfl
    refine (reaches_jmp hl hp.tail.tail.tail hf).mono ?_
    rintro t rfl
    exact ⟨⟨rfl, rfl, rfl⟩, rfl, rfl⟩

theorem follows_shortCircuit (hlabels : (labels p.code).Nodup) {isAnd : Bool} {left right : Expr}
    (hl : Simulates p slots left) (hr : Simulates p slots right) {l l' : Labels}
    {code : List Instruction}
    (hy : (shortCircuit isAnd (Lowering.expr slots left) (Lowering.expr slots right)).Yields
      l () code l')
    (hp : Placed p.code s.pc code) (hrep : Represents slots base depth env s)
    (hroom : 4 * (depth + max left.temporaries right.temporaries) ≤ base) :
    Follows p s
      (do
        let env ← left.eval p.literal env
        if (env.accumulator == 0#32) = isAnd then .ok (env.yield (truthValue (!isAnd)))
        else
          let env ← right.eval p.literal env
          .ok (env.yield (truthValue (env.accumulator != 0#32))))
      (Evaluated slots base depth s code) := by
  obtain ⟨skipped, _, _, _, hskipped, hrest, rfl⟩ := Emit.bind_yields.1 hy
  obtain ⟨finish, _, _, _, hfinish, hrest', rfl⟩ := Emit.bind_yields.1 hrest
  obtain ⟨first, second, _, hx, hx', rfl⟩ := Emit.alternate_yields hrest'
  obtain ⟨-, -, rfl, -⟩ := Emit.freshLabel_yields.1 hskipped
  obtain ⟨-, -, rfl, -⟩ := Emit.freshLabel_yields.1 hfinish
  simp only [List.nil_append, List.append_assoc, List.singleton_append] at hp ⊢
  refine (hl hx hp.left hrep (by omega)).bind ?_
  intro env' t ht
  have hpt := ht.placed hp
  have hacc := ht.represents.accumulator
  split
  · next hdecided =>
    rw [← hacc] at hdecided
    have hpf := hpt.right.tail.right.right
    refine (reaches_branch_decided hlabels hdecided hpt hpf).mono ?_
    rintro u ⟨hsame, ha, hpc⟩
    refine ⟨?_, ht.keeps.trans (.of_memory_eq hsame.memory), ?_⟩
    · rw [← ha]
      exact ht.represents.of_sameStack hsame
    · rw [hpc, ht.pc]
      simp only [List.length_append, List.length_cons, List.length_nil]
      omega
  · next hopen =>
    rw [← hacc] at hopen
    refine .after (reaches_branch_open hlabels hopen hpt) ?_
    rintro u ⟨hsame, ha, hpc⟩
    have hu : Represents slots base depth env' u := by
      have hu := ht.represents.of_sameStack hsame
      rwa [ha, hacc] at hu
    have hpu : Placed p.code u.pc (second ++ (toBoolean ++ [.label finish])) :=
      hpc ▸ hpt.right.tail
    have hzero (v : State) : p.value? v (.imm 0) = some 0#32 := rfl
    have hend := follows_then (g := fun v => truthValue (v != 0#32))
      (hr hx' hpu.left hu (by omega)) hpu (by simp [toBoolean, truth, isLinear]) fun v => by
        obtain ⟨w, hw, hv, hs⟩ := p.execAll_truth .notEqual (hzero v)
        exact ⟨_, Image.execAll_append hw _, hv, hs.esp, hs.ebp, hs.memory⟩
    refine hend.mono fun env'' v hv => ⟨hv.represents, ?_, ?_⟩
    · exact ht.keeps.trans ((Keeps.of_memory_eq hsame.memory).trans hv.keeps)
    · rw [hv.pc, hpc, ht.pc]
      simp only [List.length_append, List.length_cons]
      omega

theorem simulates_logAnd (hlabels : (labels p.code).Nodup) {left right : Expr}
    (hl : Simulates p slots left) (hr : Simulates p slots right) (pos : Position) :
    Simulates p slots (.binary .logAnd left right pos) := by
  intro l l' code env s base depth hy hp hrep hroom
  simpa [Expr.eval, truthValue] using follows_shortCircuit hlabels hl hr hy hp hrep hroom

theorem simulates_logOr (hlabels : (labels p.code).Nodup) {left right : Expr}
    (hl : Simulates p slots left) (hr : Simulates p slots right) (pos : Position) :
    Simulates p slots (.binary .logOr left right pos) := by
  intro l l' code env s base depth hy hp hrep hroom
  simpa [Expr.eval, truthValue] using follows_shortCircuit hlabels hl hr hy hp hrep hroom

/-- The operands of a compound assignment, brought to their registers. -/
theorem execAll_operands (op : ArithOp) (i : Nat) :
    ∃ t, p.execAll [.movl accumulator (.reg op.scratch), .movl (.frame (Slots.offsetAt i)) accumulator]
        s = .running t ∧
      t.eax = s.memory.load (slotAddress s.ebp i) ∧ t.get op.scratch = s.eax ∧ SameStack s t := by
  cases op <;> exact ⟨_, rfl, rfl, rfl, rfl, rfl, rfl⟩

theorem execAll_store {op : AssignOp} {i : Nat} {v : Word}
    (h : op.apply (s.memory.load (slotAddress s.ebp i)) s.eax = .ok v) :
    ∃ t, p.execAll (store (.frame (Slots.offsetAt i)) op) s = .running t ∧ t.eax = v ∧
      t.esp = s.esp ∧ t.ebp = s.ebp ∧ t.memory = s.memory.store (slotAddress s.ebp i) v := by
  cases op with
  | plain =>
    obtain rfl := Except.ok.inj h
    exact ⟨_, rfl, rfl, rfl, rfl, rfl⟩
  | compound op =>
    obtain ⟨t, ht, ha, hs, hst⟩ := execAll_operands (p := p) (s := s) op i
    rw [AssignOp.apply, ← ha, ← hs] at h
    obtain ⟨u, hu, hv, htu⟩ := p.execAll_arith h
    have hend : p.execAll [.movl accumulator (.frame (Slots.offsetAt i))] u = .running { u with
        memory := u.memory.store (slotAddress u.ebp i) u.eax, pc := u.pc + 1 } := rfl
    have hall := (Image.execAll_append ((Image.execAll_append ht _).trans hu) _).trans hend
    refine ⟨_, hall, hv, htu.esp.trans hst.esp, htu.ebp.trans hst.ebp, ?_⟩
    rw [htu.memory, hst.memory, htu.ebp, hst.ebp, hv]

theorem execAll_store_trapped {op : AssignOp} {i : Nat} {e : Stop}
    (h : op.apply (s.memory.load (slotAddress s.ebp i)) s.eax = .error e) :
    e = .division ∧ ∃ t, p.execAll (store (.frame (Slots.offsetAt i)) op) s = .trapped t := by
  cases op with
  | plain => cases h
  | compound op =>
    obtain ⟨t, ht, ha, hs, -⟩ := execAll_operands (p := p) (s := s) op i
    rw [AssignOp.apply, ← ha, ← hs] at h
    obtain ⟨he, u, hu⟩ := p.execAll_arith_trapped h
    exact ⟨he, u, Image.execAll_append_trapped ((Image.execAll_append ht _).trans hu) _⟩

theorem isLinear_store (slot : Operand) (op : AssignOp) : ∀ i ∈ store slot op, isLinear i = true := by
  cases op with
  | plain => simp [store, isLinear]
  | compound op =>
    intro i hi
    simp only [store, List.mem_append, List.mem_cons, List.not_mem_nil, or_false] at hi
    rcases hi with ((rfl | rfl) | hi) | rfl
    · rfl
    · rfl
    · exact isLinear_arith op i hi
    · rfl

theorem simulates_assign {target value : Expr} (h : Simulates p slots value) (op : AssignOp)
    (pos : Position) : Simulates p slots (.assign op target value pos) := by
  intro l l' code env s base depth hy hp hr hroom
  obtain ⟨slot, _, _, _, ht, hrest, rfl⟩ := Emit.bind_yields.1 hy
  obtain ⟨_, first, _, _, hx, he, rfl⟩ := Emit.bind_yields.1 hrest
  obtain ⟨name, offset, hv, ho, rfl, rfl, rfl⟩ := targetSlot_yields ht
  obtain ⟨rfl, -⟩ := Emit.emit_yields.1 he
  obtain ⟨i, hi, rfl⟩ := offset?_eq ho
  rw [List.nil_append] at hp ⊢
  rw [Expr.eval, eval_target hv]
  refine (h hx hp.left hr hroom).bind ?_
  intro env' t ht
  have hpt := ht.placed hp
  rw [ht.represents.lookup hi, ← ht.represents.accumulator]
  change Follows p t (do let v ← op.apply (t.memory.load (slotAddress t.ebp i)) t.eax; _) _
  cases hop : op.apply (t.memory.load (slotAddress t.ebp i)) t.eax with
  | ok v =>
    obtain ⟨u, hu, hv, hesp, hebp, hm⟩ := execAll_store (p := p) hop
    have hrun := reaches_assign ht.represents hpt (isLinear_store _ _) hu hi hesp hebp hm
    rw [hv] at hrun
    exact hrun.mono fun w hw => ht.trans hw
  | error e =>
    obtain ⟨rfl, u, hu⟩ := execAll_store_trapped (p := p) hop
    exact Image.traps_block hpt (isLinear_store _ _) hu

/-- The code of an expression does what evaluating it does. -/
theorem simulates (hl : (labels p.code).Nodup) (e : Expr) : Simulates p slots e := by
  induction e with
  | number digits pos => exact simulates_number digits pos
  | var name pos => exact simulates_var name pos
  | unary op operand pos ih =>
    cases op with
    | neg => exact simulates_neg ih pos
    | bitNot => exact simulates_bitNot ih pos
    | logNot => exact simulates_logNot ih pos
    | before op => exact simulates_before op pos
    | after op => exact simulates_after op pos
  | binary op left right pos ihl ihr =>
    cases op with
    | comma => exact simulates_comma ihl ihr pos
    | logAnd => exact simulates_logAnd hl ihl ihr pos
    | logOr => exact simulates_logOr hl ihl ihr pos
    | arith op => exact simulates_arith ihl ihr op pos
    | compare op => exact simulates_compare ihl ihr op pos
  | assign op target value pos _ ih => exact simulates_assign ih op pos

end Simulation

end SmallC
